import UGDS.Io.Threads

/-!
# UGDS.Io.Independent

Calls of `do_io` on one handle do not interfere, as long as no completion is late.

* `Threads.Sound`: a pair whose lock is free is idle, and each call is waiting, on the way to one of
  its outcomes, or has returned with one. Every timely step keeps it (`step_sound`).
* `Tally`: the steps that each call has taken so far and may still take are bounded (`step_tally`).
* `io_calls_independent`: what follows for every run.
-/

namespace UGDS

open Nvm Lib

/-- The handle on which the next call takes queue pair `i`. -/
def HandleState.startingAt (hs : HandleState) (i : Nat) : HandleState := { hs with rrCounter := i }

theorem HandleState.startingAt_qpIdx {hs : HandleState} {i : Nat} (h : i < hs.numQps)
    (hle : hs.numQps < 2 ^ 16) : (hs.startingAt i).qpIdx = i := by
  show u16 (i % hs.numQps) = i
  rw [Nat.mod_eq_of_lt h, u16, Nat.mod_eq_of_lt (by omega)]

theorem Nvm.Qp.Fresh.empty {qp : Qp} (h : qp.Fresh) : qp.cmds = [] ∧ qp.posted = [] := by
  obtain ⟨ctrl, no, k, v, loc, a, sq, no', qs', v', loc', a', cq, -, -, -, -, hqp⟩ := h
  rw [hqp]
  exact ⟨rfl, rfl⟩

theorem Nvm.Qp.Fresh.serial {qp : Qp} (h : qp.Fresh) : qp.Serial qp.cmds.length := by
  obtain ⟨hc, hp⟩ := h.empty
  exact ⟨h.inv.2, Nat.le_succ _, by simp [hp], by simp [hp]⟩

namespace Threads

/-! ## The invariant -/

/-- A call's share of the invariant. `mine` says that it holds the lock. -/
def CallOk (hs : HandleState) (pair : Qp) (mine : Prop) (c : IoThread) : Prop :=
  match c.stage with
  | .waiting dma start =>
    (∃ fly, ioAdmit hs c.io = .ok (dma, fly, start)) ∧ c.sent = [] ∧ c.taken = []
  | .inside dma l => mine ∧ ∃ ds n, Inside hs pair c dma l ds n
  | .returned ret => ∃ ds, Returned hs pair c ret ds

section CallOk

variable {hs : HandleState} {pair pair' : Qp} {mine : Prop} {c : IoThread}

/-- What others do on a pair is nothing to a call that does not hold the lock. -/
theorem CallOk.of_other (h : CallOk hs pair mine c) (hn : ¬ mine)
    (hp : pair.posted <+: pair'.posted) (ha : pair'.prpAddr = pair.prpAddr) (mine' : Prop) :
    CallOk hs pair' mine' c := by
  unfold CallOk at h ⊢
  cases hst : c.stage with
  | waiting dma start =>
    simp only [hst] at h ⊢
    exact h
  | inside dma l =>
    simp only [hst] at h
    exact absurd h.1 hn
  | returned ret =>
    simp only [hst] at h ⊢
    obtain ⟨ds, hr⟩ := h
    exact ⟨ds, hr.mono hp ha⟩

theorem CallOk.devStep (h : CallOk hs pair mine c) (a : DevAct) :
    CallOk hs (pair.devStep a) mine c := by
  have hg : Grows pair (pair.devStep a) := Grows.of_acts [a] pair
  unfold CallOk at h ⊢
  cases hst : c.stage with
  | waiting dma start =>
    simp only [hst] at h ⊢
    exact h
  | inside dma l =>
    simp only [hst] at h ⊢
    obtain ⟨hm, ds, n, hi⟩ := h
    exact ⟨hm, ds, n, hi.devStep a⟩
  | returned ret =>
    simp only [hst] at h ⊢
    obtain ⟨ds, hr⟩ := h
    exact ⟨ds, hr.mono hg.posted hg.prpAddr⟩

end CallOk

/-- `hs₀` is the handle at the start of the run. -/
structure Sound (hs₀ : HandleState) (s : Threads) : Prop where
  static : s.hs = { hs₀ with rrCounter := s.hs.rrCounter, qps := s.hs.qps }
  pairs : s.hs.qps.length = hs₀.qps.length
  addr : ∀ (i : Nat) (q q₀ : IOQueuePair), s.hs.qps[i]? = some q → hs₀.qps[i]? = some q₀ →
    q.pair.prpAddr = q₀.pair.prpAddr
  free : ∀ (i : Nat) (q : IOQueuePair), s.hs.qps[i]? = some q → s.owner i = none →
    q.pair.Serial q.pair.cmds.length
  call : ∀ (j : Nat) (c : IoThread), s.calls[j]? = some c → ∃ q, s.hs.qps[c.qp]? = some q ∧
    CallOk (hs₀.startingAt c.qp) q.pair (s.owner c.qp = some j) c

theorem Sound.init {hs₀ : HandleState} (h : hs₀.Fresh) : Sound hs₀ (init hs₀) := by
  refine ⟨rfl, rfl, ?_, ?_, by simp [Threads.init]⟩
  · intro i q q₀ hq hq₀
    rw [show (Threads.init hs₀).hs = hs₀ from rfl, hq₀] at hq
    cases hq
    rfl
  · intro i q hq _
    exact (h.pairs q (List.mem_of_getElem? hq)).serial

theorem setPair_self {hs : HandleState} {i : Nat} {q : IOQueuePair} (h : hs.qps[i]? = some q) :
    setPair hs i q q.pair = hs := by
  obtain ⟨hlt, hget⟩ := List.getElem?_eq_some_iff.mp h
  have : hs.qps.set i q = hs.qps := by
    rw [← hget]
    exact List.set_getElem_self hlt
  show { hs with qps := hs.qps.set i q } = hs
  rw [this]

section Step

variable {hs₀ : HandleState} {s s' : Threads}

theorem Sound.admit (h : Sound hs₀ s) (i : Nat) (io : IoCall) :
    ioAdmit s.hs io = ioAdmit (hs₀.startingAt i) io := by
  rw [h.static]
  rfl

theorem Sound.advance_eq (h : Sound hs₀ s) {i : Nat} {l : IoLocals} {dma : NvmDma}
    {opcode : BitVec 8} {size : Nat} {qp : Qp} :
    l.advance s.hs dma opcode size qp = l.advance (hs₀.startingAt i) dma opcode size qp := by
  rw [h.static]
  rfl

theorem Sound.inside (h : Sound hs₀ s) {j : Nat} {c : IoThread} {dma : NvmDma} {l : IoLocals}
    {q : IOQueuePair} (hc : s.calls[j]? = some c) (hst : c.stage = .inside dma l)
    (hq : s.hs.qps[c.qp]? = some q) :
    s.owner c.qp = some j ∧ ∃ ds n, Inside (hs₀.startingAt c.qp) q.pair c dma l ds n := by
  obtain ⟨q', hq', hok⟩ := h.call j c hc
  rw [hq] at hq'
  cases hq'
  simp only [CallOk, hst] at hok
  exact hok

/-- The pair of a call that enters. -/
theorem Sound.next (h : Sound hs₀ s) (h₀ : hs₀.Fresh) : ∃ q, s.hs.qps[s.hs.qpIdx]? = some q := by
  have hnum : s.hs.numQps = hs₀.numQps := by rw [h.static]
  have hlen : s.hs.numQps = s.hs.qps.length := by rw [hnum, h₀.num_eq, h.pairs]
  obtain ⟨q, -, hq⟩ := HandleState.exists_next (hnum ▸ h₀.num_pos) (hnum ▸ h₀.num_le) hlen
  exact ⟨q, hq⟩

/-- A step that touches queue pair `i`, its lock and calls on it only. -/
theorem Sound.modify (h : Sound hs₀ s) {i : Nat} {q : IOQueuePair} {pair : Qp}
    {owner : Nat → Option Nat} {calls : List IoThread} (hq : s.hs.qps[i]? = some q)
    (ha : pair.prpAddr = q.pair.prpAddr) (howner : ∀ k, k ≠ i → owner k = s.owner k)
    (hfree : owner i = none → pair.Serial pair.cmds.length)
    (hcalls : ∀ (j : Nat) (c : IoThread), calls[j]? = some c →
      (c.qp = i → CallOk (hs₀.startingAt i) pair (owner i = some j) c) ∧
        (c.qp ≠ i → s.calls[j]? = some c)) :
    Sound hs₀ ⟨setPair s.hs i q pair, owner, calls⟩ := by
  have hlt := (List.getElem?_eq_some_iff.mp hq).1
  have hself : (setPair s.hs i q pair).qps[i]? = some { q with pair := pair } :=
    List.getElem?_set_self hlt
  have hother {k : Nat} (hk : k ≠ i) : (setPair s.hs i q pair).qps[k]? = s.hs.qps[k]? :=
    List.getElem?_set_ne (Ne.symm hk)
  refine ⟨congrArg (fun hs => setPair hs i q pair) h.static, ?_, ?_, ?_, ?_⟩
  · exact List.length_set.trans h.pairs
  · intro k q' q₀ hq' hq₀
    by_cases hk : k = i
    · subst hk
      rw [hself] at hq'
      cases hq'
      exact ha.trans (h.addr k q q₀ hq hq₀)
    · rw [hother hk] at hq'
      exact h.addr k q' q₀ hq' hq₀
  · intro k q' hq' hnone
    by_cases hk : k = i
    · subst hk
      rw [hself] at hq'
      cases hq'
      exact hfree hnone
    · rw [hother hk] at hq'
      exact h.free k q' hq' ((howner k hk).symm.trans hnone)
  · intro j c hc
    obtain ⟨hin, hout⟩ := hcalls j c hc
    by_cases hk : c.qp = i
    · have hok := hin hk
      rw [← hk] at hself hok ⊢
      exact ⟨_, hself, hok⟩
    · obtain ⟨q', hq', hok⟩ := h.call j c (hout hk)
      rw [← howner _ hk] at hok
      exact ⟨q', (hother hk).trans hq', hok⟩

/-- The same when call `j`, which is on that pair, moves and the others do not hold the lock. -/
theorem Sound.modify_call (h : Sound hs₀ s) {j : Nat} {c c' : IoThread} {q : IOQueuePair}
    {pair : Qp} {owner : Nat → Option Nat} (hc : s.calls[j]? = some c)
    (hq : s.hs.qps[c.qp]? = some q) (ha : pair.prpAddr = q.pair.prpAddr)
    (hp : q.pair.posted <+: pair.posted) (howner : ∀ k, k ≠ c.qp → owner k = s.owner k)
    (hfree : owner c.qp = none → pair.Serial pair.cmds.length) (hqp : c'.qp = c.qp)
    (hothers : ∀ j', j' ≠ j → s.owner c.qp ≠ some j')
    (hok : CallOk (hs₀.startingAt c.qp) pair (owner c.qp = some j) c') :
    Sound hs₀ ⟨setPair s.hs c.qp q pair, owner, s.calls.set j c'⟩ := by
  have hlt := (List.getElem?_eq_some_iff.mp hc).1
  refine h.modify hq ha howner hfree fun j' c'' hc'' => ?_
  by_cases hj : j' = j
  · subst hj
    rw [List.getElem?_set_self hlt] at hc''
    cases hc''
    exact ⟨fun _ => hok, fun hne => absurd hqp hne⟩
  · rw [List.getElem?_set_ne (Ne.symm hj)] at hc''
    refine ⟨fun hi => ?_, fun _ => hc''⟩
    obtain ⟨q', hq', hok'⟩ := h.call j' c'' hc''
    rw [hi] at hq' hok'
    rw [hq] at hq'
    cases hq'
    exact hok'.of_other (hothers j' hj) hp ha _

/-- A call is added, on the next queue pair. -/
theorem Sound.append (h : Sound hs₀ s) (rr : Nat) {c : IoThread} {q : IOQueuePair}
    (hq : s.hs.qps[c.qp]? = some q)
    (hok : CallOk (hs₀.startingAt c.qp) q.pair (s.owner c.qp = some s.calls.length) c) :
    Sound hs₀ ⟨{ s.hs with rrCounter := rr }, s.owner, s.calls ++ [c]⟩ := by
  refine ⟨congrArg (fun hs => { hs with rrCounter := rr }) h.static, h.pairs, h.addr, h.free, ?_⟩
  exact forall_snoc h.call ⟨q, hq, hok⟩

theorem step_sound_enter (h : Sound hs₀ s) (h₀ : hs₀.Fresh) {io : IoCall}
    (hs : s.step (.enter io) = some s') : Sound hs₀ s' := by
  obtain ⟨q, hq⟩ := h.next h₀
  have hadm := h.admit s.hs.qpIdx io
  obtain ⟨stage, rr, rfl, ⟨e, he, rfl⟩ | ⟨dma, fly, start, he, rfl⟩⟩ := step_enter hs
  · rw [hadm] at he
    exact h.append rr hq ⟨[], ⟨rfl, by simp⟩, rfl, .inl ⟨e, he, rfl, rfl⟩⟩
  · rw [hadm] at he
    exact h.append rr hq ⟨⟨fly, he⟩, rfl, rfl⟩

theorem step_sound_lock (h : Sound hs₀ s) {j : Nat} (hs : s.step (.lock j) = some s') :
    Sound hs₀ s' := by
  obtain ⟨c, dma, start, hc, hst, hfree, rfl⟩ := step_lock hs
  obtain ⟨q, hq, hok⟩ := h.call j c hc
  have hserial := h.free c.qp q hq hfree
  simp only [CallOk, hst] at hok
  obtain ⟨⟨fly, hadm⟩, hsent, htaken⟩ := hok
  have hblock : s.hs.blockSize = (hs₀.startingAt c.qp).blockSize := by rw [h.static]; rfl
  rw [← setPair_self hq]
  refine h.modify_call hc hq rfl List.prefix_rfl (fun k hk => Function.update_of_ne hk _ _) ?_ rfl
    (fun j' _ hj' => by rw [hfree] at hj'; cases hj') ⟨Function.update_self _ _ _, [], _, hserial,
      ⟨htaken, by simp⟩, ⟨rfl, hsent⟩, fly, start, hadm, ?_⟩
  · intro hn
    rw [Function.update_self] at hn
    cases hn
  · intro ds' o ho
    rw [Outcome, ← hblock]
    exact ho

theorem step_sound_advance (h : Sound hs₀ s) {j : Nat} (ht : s.timely (.advance j) = true)
    (hs : s.step (.advance j) = some s') : Sound hs₀ s' := by
  obtain ⟨c, dma, l, q, t, hc, hst, hq, he, rfl⟩ := step_advance hs
  obtain ⟨hmine, ds, n, hin⟩ := h.inside hc hst hq
  have htime : l.phase.left = some 0 → q.pair.dequeue.1 ≠ none := by
    intro hl hnone
    simp [timely, hc, hst, hq, hl, hnone] at ht
  rw [h.advance_eq] at he
  obtain ⟨ha, hp, hafter⟩ := hin.advance htime he
  have hothers : ∀ j', j' ≠ j → s.owner c.qp ≠ some j' := by
    intro j' hne heq
    rw [hmine] at heq
    exact hne (Option.some.inj heq).symm
  cases hnext : t.next with
  | loop l' =>
    rw [hnext] at hafter
    refine h.modify_call hc hq ha (by rw [hp]) (fun k _ => rfl) ?_ rfl hothers ?_
    · intro hn
      have hn : s.owner c.qp = none := hn
      rw [hmine] at hn
      cases hn
    · simp only [advanced, hnext] at hafter
      simp only [CallOk, advanced, hnext]
      exact ⟨hmine, hafter⟩
  | out ret =>
    rw [hnext] at hafter
    obtain ⟨hserial, hret⟩ := hafter
    refine h.modify_call hc hq ha (by rw [hp]) (fun k hk => Function.update_of_ne hk _ _)
      (fun _ => hserial) rfl hothers ?_
    simp only [advanced, hnext] at hret
    simp only [CallOk, advanced, hnext]
    exact hret

theorem step_sound_device (h : Sound hs₀ s) {i : Nat} {a : DevAct}
    (hs : s.step (.device i a) = some s') : Sound hs₀ s' := by
  obtain ⟨q, hq, rfl⟩ := step_device hs
  have hg : Grows q.pair (q.pair.devStep a) := Grows.of_acts [a] q.pair
  refine h.modify hq hg.prpAddr (fun _ _ => rfl) ?_ fun j c hc => ⟨fun hi => ?_, fun _ => hc⟩
  · intro hn
    have hserial := h.free i q hq hn
    have hsame : q.pair.devStep a = q.pair := (hserial.idle rfl).foldl_devStep [a]
    rw [hsame]
    exact hserial
  · obtain ⟨q', hq', hok⟩ := h.call j c hc
    rw [hi] at hq' hok
    rw [hq] at hq'
    cases hq'
    exact hok.devStep a

theorem step_sound (h₀ : hs₀.Fresh) {m : Move} (h : Sound hs₀ s) (ht : s.timely m = true)
    (hs : s.step m = some s') : Sound hs₀ s' := by
  cases m with
  | enter io => exact step_sound_enter h h₀ hs
  | lock j => exact step_sound_lock h hs
  | advance j => exact step_sound_advance h ht hs
  | device i a => exact step_sound_device h hs

/-! ## The steps of each call -/

/-- The number of steps that call `j` takes in its critical section. -/
def steps (j : Nat) (tr : List (Threads × Move)) : Nat := tr.countP fun x => x.2.advances j

theorem steps_snoc (j : Nat) (tr : List (Threads × Move)) (s : Threads) (m : Move) :
    steps j (tr ++ [(s, m)]) = steps j tr + if m.advances j then 1 else 0 := by
  simp [steps, List.countP_append, List.countP_singleton]

structure Tally (spins : Nat) (tr : List (Threads × Move)) (s : Threads) : Prop where
  bound : ∀ (j : Nat) (c : IoThread), s.calls[j]? = some c →
    steps j tr + work spins c ≤ c.io.args.size * (spins + 3) + 1
  later : ∀ j, s.calls.length ≤ j → steps j tr = 0

section Tally

variable {spins : Nat} {tr : List (Threads × Move)} {m : Move}

/-- Call `j` is replaced by one that has less to do if the step was its own. -/
theorem Tally.set (h : Tally spins tr s) {j : Nat} {c c' : IoThread} (hc : s.calls[j]? = some c)
    (hcalls : s'.calls = s.calls.set j c') (hio : c'.io = c.io)
    (hm : ∀ j', j' ≠ j → m.advances j' = false)
    (hw : (work spins c' + if m.advances j then 1 else 0) ≤ work spins c) :
    Tally spins (tr ++ [(s, m)]) s' := by
  have hlt := (List.getElem?_eq_some_iff.mp hc).1
  refine ⟨?_, ?_⟩
  · intro j' c'' hc''
    rw [hcalls] at hc''
    rw [steps_snoc]
    by_cases hj : j' = j
    · subst hj
      rw [List.getElem?_set_self hlt] at hc''
      cases hc''
      have := h.bound j' c hc
      rw [hio]
      omega
    · rw [List.getElem?_set_ne (Ne.symm hj)] at hc''
      have := h.bound j' c'' hc''
      rw [hm j' hj]
      simpa using this
  · intro j' hle
    rw [hcalls, List.length_set] at hle
    rw [steps_snoc, h.later j' hle, hm j' (by omega)]
    rfl

theorem Tally.append (h : Tally spins tr s) {c : IoThread} (hcalls : s'.calls = s.calls ++ [c])
    (hm : ∀ j, m.advances j = false) (hw : work spins c ≤ c.io.args.size * (spins + 3) + 1) :
    Tally spins (tr ++ [(s, m)]) s' := by
  have hsame (j : Nat) : steps j (tr ++ [(s, m)]) = steps j tr := by
    rw [steps_snoc, hm j]
    rfl
  refine ⟨?_, ?_⟩
  · rw [hcalls]
    simp only [hsame]
    refine forall_snoc h.bound ?_
    rw [h.later _ (Nat.le_refl _)]
    omega
  · intro j hle
    rw [hcalls, List.length_append, List.length_singleton] at hle
    rw [hsame]
    exact h.later j (by omega)

theorem step_tally (h : Sound hs₀ s) (ht : Tally hs₀.spins tr s) (hs : s.step m = some s') :
    Tally hs₀.spins (tr ++ [(s, m)]) s' := by
  cases m with
  | enter io =>
    obtain ⟨stage, rr, rfl, ⟨e, -, rfl⟩ | ⟨dma, fly, start, -, rfl⟩⟩ := step_enter hs
    · exact ht.append rfl (fun _ => rfl) (Nat.zero_le _)
    · exact ht.append rfl (fun _ => rfl) (Nat.le_refl _)
  | lock j =>
    obtain ⟨c, dma, start, hc, hst, -, rfl⟩ := step_lock hs
    exact ht.set hc rfl rfl (fun _ _ => rfl) (by simp only [work, hst]; exact Nat.le_refl _)
  | advance j =>
    obtain ⟨c, dma, l, q, t, hc, hst, hq, he, rfl⟩ := step_advance hs
    obtain ⟨-, ds, n, hin⟩ := h.inside hc hst hq
    rw [h.advance_eq] at he
    have hw : work hs₀.spins (advanced c dma t) < work hs₀.spins c := hin.work_lt hst he
    refine ht.set hc rfl rfl (fun j' hne => ?_) ?_
    · exact beq_false_of_ne (Ne.symm hne)
    · simp only [Move.advances, beq_self_eq_true, if_true]
      exact hw
  | device i a =>
    obtain ⟨q, -, rfl⟩ := step_device hs
    have hsame (j : Nat) : steps j (tr ++ [(s, .device i a)]) = steps j tr := steps_snoc j tr s _
    exact ⟨fun j c hc => by rw [hsame]; exact ht.bound j c hc,
      fun j hle => by rw [hsame]; exact ht.later j hle⟩

end Tally

theorem run_sound {tr : List (Threads × Move)} (h₀ : hs₀.Fresh)
    (hr : Run step (init hs₀) tr s) (ht : ∀ x ∈ tr, x.1.timely x.2 = true) :
    Sound hs₀ s ∧ Tally hs₀.spins tr s := by
  have hinit : (∀ x ∈ ([] : List (Threads × Move)), x.1.timely x.2 = true) →
      Sound hs₀ (init hs₀) ∧ Tally hs₀.spins [] (init hs₀) :=
    fun _ => ⟨.init h₀, by simp [init], by simp [steps]⟩
  refine Run.inv_trace
    (fun tr s => (∀ x ∈ tr, x.1.timely x.2 = true) → Sound hs₀ s ∧ Tally hs₀.spins tr s)
    ?_ hr hinit ht
  intro tr s m s' ih hs hall
  obtain ⟨hsound, htally⟩ := ih fun x hx => hall x (List.mem_append_left _ hx)
  have hlast := hall (s, m) (List.mem_append_right _ (List.mem_singleton_self _))
  exact ⟨step_sound h₀ hsound hlast hs, step_tally hsound htally hs⟩

end Step

/-! ## Alone on a fresh queue pair -/

/-- Call `c` alone, on its queue pair as registration left it, does what it did in the run: `ds` are
the completions it consumed there and `o` is its result (`none`: undefined behaviour). -/
def Alone (hs₀ : HandleState) (dev : Device) (t : Nat) (c : IoThread) (ds : List Post) :
    Option Int → Prop
  | none => doIo dev t (hs₀.startingAt c.qp) c.io.reg c.io.mapDevice c.io.args = none
  | some ret => ∃ r q,
      doIo dev t (hs₀.startingAt c.qp) c.io.reg c.io.mapDevice c.io.args = some r ∧
      r.ret = ret ∧ r.hs.qps[c.qp]? = some q ∧
      List.Forall₂ (fun d d' => ∃ x ∈ c.io.reqs (hs₀.startingAt c.qp),
        SameTurn (hs₀.startingAt c.qp) x d d') ds q.pair.posted

/-- The same with every controller that is in time and answers with the statuses of the run. -/
def AsAlone (hs₀ : HandleState) (c : IoThread) (ds : List Post) (o : Option Int) : Prop :=
  ∀ (dev : Device) (st : Nat → BitVec 32) (t : Nat), dev.Answers hs₀.spins st →
    (∀ k d, ds[k]? = some d → d.cpl.status = st k) → Alone hs₀ dev t c ds o

section Alone

variable {hs₀ : HandleState} {c : IoThread} {q₀ : IOQueuePair} {ds : List Post}

theorem Outcome.as_alone {dma : NvmDma} {fly : Bool} {start : Nat} {o : Option Int}
    (h₀ : hs₀.Fresh) (hq₀ : hs₀.qps[c.qp]? = some q₀)
    (hadm : ioAdmit (hs₀.startingAt c.qp) c.io = .ok (dma, fly, start))
    (ho : Outcome (hs₀.startingAt c.qp) q₀.pair.prpAddr c.io dma start ds o) :
    AsAlone hs₀ c ds o := by
  intro dev st t hdev hst
  have hlt := (List.getElem?_eq_some_iff.mp hq₀).1
  have hfresh := h₀.pairs q₀ (List.mem_of_getElem? hq₀)
  obtain ⟨hcmds, hposted⟩ := hfresh.empty
  obtain ⟨hv, hbuf⟩ := ioAdmit_ok hadm
  have hidx : (hs₀.startingAt c.qp).qpIdx = c.qp :=
    HandleState.startingAt_qpIdx (by rw [h₀.num_eq]; exact hlt) h₀.num_le
  have hq : (hs₀.startingAt c.qp).qps[(hs₀.startingAt c.qp).qpIdx]? = some q₀ := by
    rw [hidx]
    exact hq₀
  have hdo := doIo_valid dev t hv hbuf (Nat.ne_of_gt h₀.num_pos) hq
  have hrep := LoopOutcome.alone ho hdev (c.io.args.size / (hs₀.startingAt c.qp).blockSize) t
    q₀.pair hfresh.inv.2 (by simp [Qp.Answered, hposted]) rfl
    (by rw [hcmds]; simpa using hst) (Nat.dvd_of_mod_eq_zero hv.size_block)
    (Nat.pos_of_ne_zero hv.block_pos) (Nat.le_refl _)
  cases o with
  | none =>
    rw [Alone, hdo, hrep]
    rfl
  | some ret =>
    obtain ⟨t', q, ds', hl, hpo, hall⟩ := hrep
    rw [hposted, List.nil_append] at hpo
    have hreqs : c.io.reqs (hs₀.startingAt c.qp) =
        ioReqs (hs₀.startingAt c.qp) c.io.args.size
          (c.io.args.size / (hs₀.startingAt c.qp).blockSize) 0
          (c.io.args.fileOffset.toNat / (hs₀.startingAt c.qp).blockSize) start := by
      simp only [IoCall.reqs, hadm]
    rw [Alone, hdo, hl, hreqs]
    refine ⟨_, { q₀ with pair := q }, rfl, rfl, ?_, ?_⟩
    · simp only [hidx]
      exact List.getElem?_set_self hlt
    · simp only [hpo]
      exact hall

theorem Returned.as_alone {pair : Qp} {ret : Int} (h₀ : hs₀.Fresh)
    (hq₀ : hs₀.qps[c.qp]? = some q₀) (ha : pair.prpAddr = q₀.pair.prpAddr)
    (h : Returned (hs₀.startingAt c.qp) pair c ret ds) : AsAlone hs₀ c ds (some ret) := by
  rcases h.outcome with ⟨e, he, rfl, rfl⟩ | ⟨dma, fly, start, hadm, ho⟩
  · intro dev st t _ _
    have hposted := (h₀.pairs q₀ (List.mem_of_getElem? hq₀)).empty.2
    exact ⟨_, q₀, doIo_refused he dev t, rfl, hq₀, by rw [hposted]; exact .nil⟩
  · rw [ha] at ho
    exact Outcome.as_alone h₀ hq₀ hadm ho

end Alone

/-- What is true of call `j` in a state: its number of steps is bounded; the completions `ds` it has
consumed are those of its first commands, and of all of them once it has returned; it returns what
it would return alone, with the same commands; and it is stuck only if it would be alone. -/
structure Independent (hs₀ : HandleState) (tr : List (Threads × Move)) (s : Threads) (j : Nat)
    (c : IoThread) (pair : Qp) (ds : List Post) : Prop where
  bounded : steps j tr ≤ c.io.args.size * (hs₀.spins + 3) + 1
  own : Consumed pair c ds ∧ ds.map Post.seq <+: c.sent
  returned : ∀ ret, c.stage = .returned ret →
    c.sent = ds.map Post.seq ∧ AsAlone hs₀ c ds (some ret)
  stuck : ∀ dma l, c.stage = .inside dma l → s.step (.advance j) = none → AsAlone hs₀ c ds none

theorem Sound.independent {hs₀ : HandleState} {tr : List (Threads × Move)} {s : Threads}
    (h₀ : hs₀.Fresh) (h : Sound hs₀ s) (ht : Tally hs₀.spins tr s) {j : Nat} {c : IoThread}
    (hc : s.calls[j]? = some c) :
    ∃ q ds, s.hs.qps[c.qp]? = some q ∧ Independent hs₀ tr s j c q.pair ds := by
  have hbound := ht.bound j c hc
  obtain ⟨q, hq, hok⟩ := h.call j c hc
  obtain ⟨q₀, hq₀⟩ : ∃ q₀, hs₀.qps[c.qp]? = some q₀ := by
    have hlt := (List.getElem?_eq_some_iff.mp hq).1
    rw [h.pairs] at hlt
    exact ⟨_, List.getElem?_eq_getElem hlt⟩
  have ha := h.addr c.qp q q₀ hq hq₀
  unfold CallOk at hok
  cases hst : c.stage with
  | waiting dma start =>
    simp only [hst] at hok
    refine ⟨q, [], hq, by omega, ⟨⟨hok.2.2, by simp⟩, List.nil_prefix⟩, ?_, ?_⟩
    · intro _ hst'
      cases hst.symm.trans hst'
    · intro _ _ hst'
      cases hst.symm.trans hst'
  | inside dma l =>
    simp only [hst] at hok
    obtain ⟨-, ds, n, hin⟩ := hok
    refine ⟨q, ds, hq, by omega, ⟨hin.consumed, ?_⟩, ?_, ?_⟩
    · have hph := hin.phase
      unfold AtPhase at hph
      split at hph
      · rw [hph.2]
      · exact hph.elim
      · rw [hph.2.1]
        exact List.prefix_append _ _
    · intro _ hst'
      cases hst.symm.trans hst'
    · intro _ _ _ hnone
      cases hadv : l.advance s.hs dma c.io.args.opcode c.io.args.size q.pair with
      | none =>
        rw [h.advance_eq] at hadv
        obtain ⟨fly, start, hadm, ho⟩ := hin.stuck hadv
        rw [ha] at ho
        exact Outcome.as_alone h₀ hq₀ hadm ho
      | some t => simp [step, hc, hst, hq, hadv] at hnone
  | returned ret =>
    simp only [hst] at hok
    obtain ⟨ds, hret⟩ := hok
    refine ⟨q, ds, hq, by omega, ⟨hret.consumed, by rw [hret.sent]⟩, ?_, ?_⟩
    · intro ret' hst'
      cases hst.symm.trans hst'
      exact ⟨hret.sent, hret.as_alone h₀ hq₀ ha⟩
    · intro _ _ hst'
      cases hst.symm.trans hst'

end Threads

/-- Any number of calls, interleaved in any way with one another and with the controller, as long as
no wait runs out: a queue pair whose lock is free is idle, and no call notices the others. -/
theorem io_calls_independent (hs₀ : HandleState) (h₀ : hs₀.Fresh)
    (tr : List (Threads × Threads.Move)) (s : Threads)
    (hr : Run Threads.step (Threads.init hs₀) tr s) (ht : ∀ x ∈ tr, x.1.timely x.2 = true) :
    (∀ (i : Nat) (q : IOQueuePair), s.hs.qps[i]? = some q → s.owner i = none → q.pair.Quiet) ∧
      ∀ (j : Nat) (c : IoThread), s.calls[j]? = some c →
        ∃ q ds, s.hs.qps[c.qp]? = some q ∧ Threads.Independent hs₀ tr s j c q.pair ds := by
  obtain ⟨hsound, htally⟩ := Threads.run_sound h₀ hr ht
  refine ⟨?_, ?_⟩
  · intro i q hq hfree
    exact ((hsound.free i q hq hfree).idle rfl).quiet
  · intro j c hc
    exact hsound.independent h₀ htally hc

/-- A handle with two queue pairs. -/
def twoPairs : HandleState :=
  { sampleHandle with
    numQps := 2
    qps := [⟨sampleQp, none, none, none⟩, ⟨sampleQp, none, none, none⟩] }

theorem twoPairs_fresh : twoPairs.Fresh := by
  refine ⟨rfl, by decide, by decide, ?_⟩
  intro q hq
  apply sampleHandle_fresh.pairs
  simpa [twoPairs, sampleHandle] using hq

/-- A completion with status 1. -/
def errorCpl : NvmCpl := ⟨fun i => if i = 3 then 0x00020000#32 else 0#32⟩

def IoThread.result (c : IoThread) : Option Int :=
  match c.stage with
  | .returned ret => some ret
  | _ => none

/-- Three calls on two pairs. The first one fails with an error status while the second one runs on
the other pair; the third one waits for the first one's lock and then succeeds, as it does alone. -/
theorem io_calls_independent_after_error :
    ∃ tr s, Run Threads.step (Threads.init twoPairs) tr s ∧
      s.calls.map IoThread.result = [some (-5), some 512, some 512] ∧
      (∃ q, s.hs.qps[0]? = some q ∧ q.pair.Quiet) ∧
      ∃ c dev r, s.calls[2]? = some c ∧
        doIo dev 0 (twoPairs.startingAt c.qp) c.io.reg c.io.mapDevice c.io.args = some r ∧
        r.ret = 512 := by
  obtain ⟨tr, s, hr, ht, hobs⟩ := follow_run Threads.step (fun s m => s.timely m)
    (Threads.init twoPairs)
    [.enter sampleCall, .enter sampleCall, .enter sampleCall, .lock 0, .lock 1, .advance 0,
      .advance 1, .device 0 .fetch, .advance 0, .device 1 .fetch, .device 0 (.complete 0 errorCpl),
      .device 1 (.complete 0 .zero), .advance 1, .advance 0, .advance 1, .lock 2, .advance 2,
      .device 0 .fetch, .device 0 (.complete 0 .zero), .advance 2, .advance 2]
    (fun s => decide (s.calls.map IoThread.result = [some (-5), some 512, some 512]) &&
      (s.owner 0).isNone && decide (s.hs.qps.length = 2))
    (by decide +kernel)
  simp only [Bool.and_eq_true, decide_eq_true_eq, Option.isNone_iff_eq_none] at hobs
  obtain ⟨⟨hres, hfree⟩, hlen⟩ := hobs
  obtain ⟨hquiet, hcalls⟩ := io_calls_independent twoPairs twoPairs_fresh tr s hr ht
  have hq : s.hs.qps[0]? = some s.hs.qps[0] := List.getElem?_eq_getElem (by omega)
  refine ⟨tr, s, hr, hres, ⟨_, hq, hquiet 0 _ hq hfree⟩, ?_⟩
  have h2 : (s.calls.map IoThread.result)[2]? = some (some 512) := by rw [hres]; rfl
  rw [List.getElem?_map, Option.map_eq_some_iff] at h2
  obtain ⟨c, hc, hret⟩ := h2
  obtain ⟨q, ds, -, hind⟩ := hcalls 2 c hc
  have hst : c.stage = .returned 512 := by
    unfold IoThread.result at hret
    split at hret
    · rename_i ret hst
      rw [hst, Option.some.inj hret]
    · cases hret
  obtain ⟨-, halone⟩ := hind.returned 512 hst
  -- the controller of the call alone sends what the call consumed in the run
  obtain ⟨r, q', hdo, hr, -⟩ := halone _ _ 0
    (Device.script_answers (fun k => ((ds[k]?).map Post.cpl).getD .zero) twoPairs.spins)
    (fun k d hk => by simp only [hk]; rfl)
  exact ⟨c, _, r, hc, hdo, hr⟩

end UGDS
