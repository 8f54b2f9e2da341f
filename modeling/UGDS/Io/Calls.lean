import UGDS.Io.Transfer

/-!
# UGDS.Io.Calls

Sequences of `do_io` calls on one handle, with the controller free to act during and between them.

A call's wait may run out; the command then stays outstanding and its completion arrives during
some later call. Whatever happens, the queue pairs stay in the states of `Qp.Inv`
(`ioLoop_inv`, `IoSys.step_inv`). A call that starts on an idle pair takes only completions of its
own commands (`ioLoop_from_idle`).

* `do_io_own_completions`: a call that starts with `sq.head == sq.tail` and returns its size has
  had a completion with status 0 for each command it submitted, and no other status is ever posted
  for them.
* `do_io_stale_completion`: after a call whose wait ran out, the next one can return its size with
  its own command not even fetched.
-/

namespace UGDS

open Nvm Lib

/-! ## Any call keeps the queue pairs consistent -/

/-- What never changes on a queue pair, and what only grows. -/
structure Grows (qp qp' : Qp) : Prop where
  cmds : qp.cmds <+: qp'.cmds
  posted : qp.posted <+: qp'.posted
  prpAddr : qp'.prpAddr = qp.prpAddr
  ids : qp'.ids = qp.ids

theorem Grows.refl (qp : Qp) : Grows qp qp := ⟨List.prefix_rfl, List.prefix_rfl, rfl, rfl⟩

theorem Grows.trans {a b c : Qp} (h : Grows a b) (h' : Grows b c) : Grows a c :=
  ⟨h.cmds.trans h'.cmds, h.posted.trans h'.posted, h'.prpAddr.trans h.prpAddr, h'.ids.trans h.ids⟩

theorem Grows.of_moved {dev : Device} {a b : Qp} (h : Qp.Moved dev a b) : Grows a b := by
  obtain ⟨new, hn, -⟩ := h.posted
  exact ⟨by rw [h.cmds], by rw [hn]; exact List.prefix_append _ _, h.prpAddr, h.ids⟩

theorem Grows.of_acts (acts : List DevAct) (qp : Qp) : Grows qp (acts.foldl Qp.devStep qp) := by
  have h : Qp.Moved (fun _ _ => acts) qp (acts.foldl Qp.devStep qp) := Qp.moved_tick 0 qp
  exact .of_moved h

section Inv

variable {dev : Device} {hs : HandleState} {dma : NvmDma} {opcode : BitVec 8} {qp q : Qp}
  {n t t' : Nat}

/-- The inner loop ends: after one `nvm_sq_update` a slot is free. -/
theorem drainEnqueue_spec (dev : Device) (h : qp.Inv n) (spins t : Nat) :
    (∃ t' q n', drainEnqueue dev spins 2 t qp = some (none, t', q) ∧ q.Inv n' ∧
        Qp.Moved dev qp q) ∨
      ∃ t' q n' slot r, drainEnqueue dev spins 2 t qp = some (some slot, t', { q with sq := r }) ∧
        q.Inv n' ∧ Qp.Moved dev qp q ∧ r.q.ident = q.sq.q.ident ∧
        ∀ prp cmd, (({ q with sq := r, prp := prp } : Qp).put slot cmd).submit.Inv n' := by
  have hroom := h.sq.room
  by_cases hf : qp.cmds.length + 1 < n + qp.sq.q.qs
  · obtain ⟨slot, r, he, hi⟩ := h.issue hf
    exact .inr ⟨t, qp, n, slot, r, by simp only [drainEnqueue, he], h, .refl qp,
      Qp.enqueue_ident he, hi⟩
  · have he : qp.enqueue = none := h.enqueue_none (by omega)
    rcases Qp.busyPoll_spec dev h spins t with
      ⟨t', q, hp, hm, hi, -⟩ | ⟨p, t', q, hp, hm, hi, -⟩
    · exact .inl ⟨t', q, n, by simp only [drainEnqueue, he, hp], hi, hm⟩
    · by_cases hst : p.cpl.status = 0
      · have hf' : q.retire.cmds.length + 1 < n + 1 + q.retire.sq.q.qs := by
          rw [hm.cmds, hm.qs]
          omega
        obtain ⟨slot, r, he', hi'⟩ := hi.issue hf'
        refine .inr ⟨t', q.retire, n + 1, slot, r, ?_, hi, hm, Qp.enqueue_ident he', hi'⟩
        simp only [drainEnqueue, he, hp, hst, he', ne_eq, not_true_eq_false, if_false]
      · refine .inl ⟨t', q.retire, n + 1, ?_, hi, hm⟩
        simp only [drainEnqueue, he, hp, ne_eq, hst, not_false_eq_true, if_true]

theorem ioIssue_put {chunk lba page slot : Nat} {q₂ : Qp}
    (h : ioIssue hs dma opcode chunk lba page slot q = some q₂) :
    ∃ cid prp1 prp2 prp,
      dataPtrs dma.ioaddrs page (hs.chunkPages chunk) q.prpAddr q.prp = some (prp1, prp2, prp) ∧
      q₂ = (({ q with prp := prp } : Qp).put slot
        (rwCmd hs opcode chunk lba cid prp1 prp2)).submit := by
  unfold ioIssue at h
  split at h
  · cases h
  · rename_i prp1 prp2 prp hd
    cases h
    exact ⟨_, prp1, prp2, prp, hd, rfl⟩

/-- What a turn puts before the controller: nothing, or the command for the chunk, whose data
pointer and list page are those of the buffer. -/
def Sends (hs : HandleState) (dma : NvmDma) (opcode : BitVec 8) (chunk lba page : Nat) (qp q : Qp) :
    Prop :=
  (q.cmds = qp.cmds ∧ q.lists = qp.lists ∧ q.prp = qp.prp) ∨
    ∃ cid prp1 prp2, q.cmds = qp.cmds ++ [rwCmd hs opcode chunk lba cid prp1 prp2] ∧
      q.lists = qp.lists ++ [q.prp] ∧
      dataPtrs dma.ioaddrs page (hs.chunkPages chunk) qp.prpAddr qp.prp = some (prp1, prp2, q.prp)

theorem ioChunk_spec {chunk lba page : Nat} {ok : Bool} (h : qp.Inv n)
    (he : ioChunk dev hs dma opcode chunk lba page t qp = some (ok, t', q)) :
    (∃ n', q.Inv n') ∧ Grows qp q ∧ Sends hs dma opcode chunk lba page qp q ∧
      (ok = true → q.cmds ≠ qp.cmds) := by
  unfold ioChunk at he
  rcases drainEnqueue_spec dev h hs.spins t with
    ⟨t₁, q₁, n₁, hd, hi, hm⟩ | ⟨t₁, q₁, n₁, slot, r, hd, hi, hm, hid, hput⟩
  · rw [hd] at he
    cases he
    exact ⟨⟨n₁, hi⟩, .of_moved hm, .inl ⟨hm.cmds, hm.lists, hm.prp⟩, by simp⟩
  · rw [hd] at he
    simp only at he
    split at he
    · cases he
    · rename_i q₂ hiss
      obtain ⟨cid, prp1, prp2, prp, hptr, rfl⟩ := ioIssue_put hiss
      generalize hcmd : rwCmd hs opcode chunk lba cid prp1 prp2 = cmd at he
      have hi₂ := hput prp cmd
      have hg₂ : Grows qp ((({ q₁ with sq := r, prp := prp } : Qp).put slot cmd).submit) :=
        (Grows.of_moved hm).trans ⟨List.prefix_append _ _, List.prefix_rfl, rfl,
          by simp only [Qp.ids, Qp.submit, Qp.put, SqRing.submit_ident, SqRing.write_q, hid]⟩
      have hsends {q₃ : Qp} {ok : Bool} (hm₃ : Qp.Moved dev
          (({ q₁ with sq := r, prp := prp } : Qp).put slot cmd).submit q₃) :
          Sends hs dma opcode chunk lba page qp q₃ ∧ (ok = true → q₃.cmds ≠ qp.cmds) := by
        refine ⟨.inr ⟨cid, prp1, prp2, ?_, ?_, ?_⟩, fun _ => ?_⟩
        · rw [hm₃.cmds, ← hm.cmds, hcmd]
          rfl
        · rw [hm₃.lists, hm₃.prp, ← hm.lists]
          rfl
        · rw [hm₃.prp, ← hm.prpAddr, ← hm.prp]
          exact hptr
        · rw [hm₃.cmds, ← hm.cmds]
          simp [Qp.put, Qp.submit]
      rcases Qp.busyPoll_spec dev hi₂ hs.spins t₁ with
        ⟨t₃, q₃, hp, hm₃, hi₃, -⟩ | ⟨p, t₃, q₃, hp, hm₃, hi₃, -⟩
      · rw [hp] at he
        cases he
        exact ⟨⟨_, hi₃⟩, hg₂.trans (.of_moved hm₃), hsends hm₃⟩
      · rw [hp] at he
        cases he
        exact ⟨⟨_, hi₃⟩, hg₂.trans (.of_moved hm₃), hsends hm₃⟩

/-- The ways the loop can end: all bytes done, no whole block fits, a turn failed, or a turn
succeeded and the rest of the loop gave the result. -/
theorem ioLoop_cases {size fuel bytesDone lba page : Nat} {ret : Int}
    (he : ioLoop dev hs dma opcode size fuel bytesDone lba page t qp = some (ret, t', q)) :
    (size ≤ bytesDone ∧ ret = ssize bytesDone ∧ q = qp) ∨
      (ret = -Errno.EINVAL.code ∧ q = qp ∧ bytesDone < size ∧
        hs.chunkSize (size - bytesDone) = 0) ∨
      (∃ fuel' chunk, fuel = fuel' + 1 ∧
        ioChunk dev hs dma opcode chunk lba page t qp = some (false, t', q) ∧
        ret = -Errno.code Errno.EIO ∧
        bytesDone < size ∧ chunk = hs.chunkSize (size - bytesDone) ∧ chunk ≠ 0) ∨
      ∃ fuel' chunk t₁ q₁, fuel = fuel' + 1 ∧
        ioChunk dev hs dma opcode chunk lba page t qp = some (true, t₁, q₁) ∧
        ioLoop dev hs dma opcode size fuel' (bytesDone + chunk) (lba + chunk / hs.blockSize)
          (page + hs.chunkPages chunk) t₁ q₁ = some (ret, t', q) ∧
        bytesDone < size ∧ chunk = hs.chunkSize (size - bytesDone) ∧ chunk ≠ 0 := by
  rw [ioLoop.eq_def] at he
  by_cases hz : size ≤ bytesDone
  · rw [if_pos hz] at he
    cases he
    exact .inl ⟨hz, rfl, rfl⟩
  · rw [if_neg hz] at he
    cases fuel with
    | zero => cases he
    | succ fuel' =>
      simp only at he
      split at he
      · rename_i hc0
        cases he
        exact .inr (.inl ⟨rfl, rfl, by omega, hc0⟩)
      · rename_i hne
        split at he
        · cases he
        · rename_i hc
          cases he
          exact .inr (.inr (.inl ⟨fuel', _, rfl, hc, rfl, by omega, rfl, hne⟩))
        · rename_i t₁ q₁ hc
          exact .inr (.inr (.inr ⟨fuel', _, t₁, q₁, rfl, hc, he, by omega, rfl, hne⟩))

theorem ioLoop_inv {size fuel bytesDone lba page : Nat} {ret : Int} (h : qp.Inv n)
    (he : ioLoop dev hs dma opcode size fuel bytesDone lba page t qp = some (ret, t', q)) :
    (∃ n', q.Inv n') ∧ Grows qp q := by
  induction fuel using Nat.strongRecOn generalizing bytesDone lba page t qp n with
  | ind fuel ih =>
    rcases ioLoop_cases he with ⟨-, -, rfl⟩ | ⟨-, rfl, -⟩ | ⟨-, chunk, -, hc, -⟩ |
      ⟨fuel', chunk, t₁, q₁, rfl, hc, hl, -⟩
    · exact ⟨⟨n, h⟩, .refl q⟩
    · exact ⟨⟨n, h⟩, .refl q⟩
    · exact ⟨(ioChunk_spec h hc).1, (ioChunk_spec h hc).2.1⟩
    · obtain ⟨⟨n₁, hi⟩, hg, -⟩ := ioChunk_spec h hc
      obtain ⟨hi', hg'⟩ := ih fuel' (Nat.lt_succ_self fuel') hi hl
      exact ⟨hi', hg.trans hg'⟩

end Inv

/-! ## A call that starts on an idle pair -/

section Idle

variable {dev : Device} {hs : HandleState} {dma : NvmDma} {opcode : BitVec 8} {qp q : Qp}
  {t t' : Nat}

theorem ioChunk_from_idle {chunk lba page : Nat} {ok : Bool} (h : qp.Idle)
    (he : ioChunk dev hs dma opcode chunk lba page t qp = some (ok, t', q)) :
    (ok = false ∧ ¬ dev.Completes hs.spins) ∨
      ∃ cmd cpl prp, ok = decide (cpl.status = 0) ∧ q.Idle ∧ q.cmds = qp.cmds ++ [cmd] ∧
        q.posted = qp.posted ++ [⟨qp.cmds.length, cmd, cpl, prp⟩] := by
  cases hd : dataPtrs dma.ioaddrs page (hs.chunkPages chunk) qp.prpAddr qp.prp with
  | none =>
    obtain ⟨slot, r, hq, -⟩ := h.issue h.has_room
    simp only [ioChunk, drainEnqueue, hq, ioIssue, hd] at he
    cases he
  | some x =>
    obtain ⟨prp1, prp2, prp⟩ := x
    obtain ⟨cid, q₁, hi, hc, hrun⟩ := ioChunk_idle dev opcode lba t h hd
    rcases hrun with ⟨t₁, q₂, hp, he', -, -⟩ | ⟨cpl, t₁, q₂, he', -, hq, hqc, -, hqp⟩
    · rw [he'] at he
      cases he
      refine .inl ⟨rfl, fun hdev => ?_⟩
      obtain ⟨k, hk, hlt⟩ := hdev.timely t q₁ _ hi (by simp [hc])
      have := Qp.busyPoll_finds hi hs.spins t hk hlt
      rw [hp] at this
      exact this rfl
    · rw [he'] at he
      cases he
      exact .inr ⟨_, cpl, prp, rfl, hq, by rw [hqc, hc], hqp⟩

/-- Every command with a number in `[lo, hi)` was completed with status 0. -/
def Nvm.Qp.Succeeded (qp : Qp) (lo hi : Nat) : Prop :=
  ∀ k, lo ≤ k → k < hi → ∃ p ∈ qp.posted, p.seq = k ∧ p.cpl.status = 0

/-- The loop from an idle pair: with a controller that completes everything in time the pair is
idle afterwards, and a positive result means that all commands of the call succeeded. -/
theorem ioLoop_from_idle {size fuel bytesDone lba page : Nat} {ret : Int} (h : qp.Idle)
    (he : ioLoop dev hs dma opcode size fuel bytesDone lba page t qp = some (ret, t', q)) :
    (dev.Completes hs.spins → q.Idle) ∧
      (0 < ret → q.Idle ∧ q.Succeeded qp.cmds.length q.cmds.length) := by
  have hnone : qp.Succeeded qp.cmds.length qp.cmds.length := fun k h1 h2 => by omega
  induction fuel using Nat.strongRecOn generalizing bytesDone lba page t qp with
  | ind fuel ih =>
    rcases ioLoop_cases he with ⟨-, -, rfl⟩ | ⟨rfl, rfl, -⟩ | ⟨-, chunk, -, hc, rfl, -⟩ |
      ⟨fuel', chunk, t₁, q₁, rfl, hc, hl, -⟩
    · exact ⟨fun _ => h, fun _ => ⟨h, hnone⟩⟩
    · exact ⟨fun _ => h, fun hr => absurd hr (by decide)⟩
    · refine ⟨fun hdev => ?_, fun hr => absurd hr (by decide)⟩
      rcases ioChunk_from_idle h hc with ⟨-, hn⟩ | ⟨_, _, _, -, hq, -, -⟩
      · exact absurd hdev hn
      · exact hq
    · rcases ioChunk_from_idle h hc with ⟨hf, -⟩ | ⟨cmd, cpl, prp, hok, hq, hqc, hqp⟩
      · cases hf
      · have hst : cpl.status = 0 := of_decide_eq_true hok.symm
        obtain ⟨h1, h2⟩ := ih fuel' (Nat.lt_succ_self fuel') hq hl (fun k h1 h2 => by omega)
        refine ⟨h1, fun hr => ?_⟩
        obtain ⟨hqi, hsucc⟩ := h2 hr
        refine ⟨hqi, fun k hk hk' => ?_⟩
        by_cases hnew : k < q₁.cmds.length
        · -- the command of this turn
          rw [hqc, List.length_append, List.length_singleton] at hnew
          have hmem : (⟨qp.cmds.length, cmd, cpl, prp⟩ : Post) ∈ q₁.posted := by
            rw [hqp]
            exact List.mem_append_right _ (List.mem_singleton_self _)
          exact ⟨_, (ioLoop_inv hq hl).2.posted.subset hmem, by simp only; omega, hst⟩
        · exact hsucc k (by omega) hk'

end Idle

/-! ## Runs of calls -/

/-- A queue pair as `uGDSHandleRegister` leaves it: both queues cleared, the submission queue of a
power-of-two size. -/
def Nvm.Qp.Fresh (qp : Qp) : Prop :=
  ∃ ctrl no k v loc a sq no' qs' v' loc' a' cq, 1 ≤ k ∧ k ≤ 16 ∧
    nvmQueueClear ctrl false no (2 ^ k) loc v a = .ok sq ∧
    nvmQueueClear ctrl true no' qs' loc' v' a' = .ok cq ∧
    qp = Qp.create sq cq qp.prpAddr

theorem Nvm.Qp.Fresh.inv {qp : Qp} (h : qp.Fresh) : qp.Inv 0 ∧ qp.Idle := by
  obtain ⟨ctrl, no, k, v, loc, a, sq, no', qs', v', loc', a', cq, hk, hk', hsq, hcq, hqp⟩ := h
  have hi : (Qp.create sq cq qp.prpAddr).Inv 0 := Qp.Inv.create hk hk' hsq hcq
  rw [hqp]
  exact ⟨hi, hi⟩

/-- A handle as registration leaves it. -/
structure HandleState.Fresh (hs : HandleState) : Prop where
  num_eq : hs.numQps = hs.qps.length
  num_pos : 0 < hs.numQps
  num_le : hs.numQps < 2 ^ 16
  pairs : ∀ q ∈ hs.qps, q.pair.Fresh

/-- One call: its arguments, the registry's entry for its buffer, and what mapping the buffer on
the fly would give. -/
structure IoCall where
  reg : Option NvmDma
  mapDevice : Nat → Nat → Except Errno NvmDma
  args : IoArgs

/-- A call, or the controller acting on queue pair `i` between calls. -/
inductive IoStep where
  | call (c : IoCall)
  | device (i : Nat) (acts : List DevAct)

/-- A handle and the number of the next poll. -/
structure IoSys where
  hs : HandleState
  t : Nat

namespace IoSys

def call (dev : Device) (s : IoSys) (c : IoCall) : Option IoResult :=
  doIo dev s.t s.hs c.reg c.mapDevice c.args

def step (dev : Device) (s : IoSys) : IoStep → Option IoSys
  | .call c => (s.call dev c).map fun r => ⟨r.hs, r.t⟩
  | .device i acts =>
    match s.hs.qps[i]? with
    | none => none
    | some q =>
      some { s with
        hs := { s.hs with
          qps := s.hs.qps.set i { q with pair := acts.foldl Qp.devStep q.pair } } }

/-- A step rewrites one queue pair and otherwise only the round-robin counter and the clock. -/
theorem step_cases {dev : Device} {s s' : IoSys} {l : IoStep} (h : s.step dev l = some s') :
    s'.hs = s.hs ∨
      ∃ i q pair, s.hs.qps[i]? = some q ∧
        s'.hs = { s.hs with
          rrCounter := s'.hs.rrCounter
          qps := s.hs.qps.set i { q with pair := pair } } ∧
        (∀ n, q.pair.Inv n → (∃ n', pair.Inv n') ∧ Grows q.pair pair) ∧
        (q.pair.Idle → dev.Completes s.hs.spins → pair.Idle) := by
  cases l with
  | call c =>
    obtain ⟨r, hr, rfl⟩ := Option.map_eq_some_iff.mp h
    rcases doIo_cases hr with ⟨-, -, he, -⟩ | ⟨dma, fly, start, q, ret, t', pair, -, -, hq, hl, rfl⟩
    · exact .inl he
    · exact .inr ⟨_, q, pair, hq, rfl, fun n hi => ioLoop_inv hi hl,
        fun hi => (ioLoop_from_idle hi hl).1⟩
  | device i acts =>
    simp only [step] at h
    split at h
    · cases h
    · rename_i q hq
      cases h
      refine .inr ⟨i, q, _, hq, rfl, fun n hi => ⟨⟨n, hi.foldl acts⟩, .of_acts acts _⟩,
        fun hi _ => hi.acts acts⟩

/-- Every queue pair is in a state of `Qp.Inv`. -/
def Inv (s : IoSys) : Prop := ∀ q ∈ s.hs.qps, ∃ n, q.pair.Inv n

theorem step_inv {dev : Device} {s s' : IoSys} {l : IoStep} (h : s.Inv)
    (hs : s.step dev l = some s') : s'.Inv := by
  rcases step_cases hs with he | ⟨i, q, pair, hq, he, hinv, -⟩
  · rw [Inv, he]
    exact h
  · intro q' hq'
    rw [he] at hq'
    rcases List.mem_or_eq_of_mem_set hq' with hm | rfl
    · exact h q' hm
    · obtain ⟨n, hn⟩ := h q (List.mem_of_getElem? hq)
      exact (hinv n hn).1

theorem run_inv {dev : Device} {s s' : IoSys} {tr : List (IoSys × IoStep)} (h : s.Inv)
    (hr : Run (step dev) s tr s') : s'.Inv :=
  Run.inv_all Inv (fun _ _ _ => step_inv) hr h

/-- Along a run each queue pair only grows. -/
theorem run_grows {dev : Device} {s s' : IoSys} {tr : List (IoSys × IoStep)} (h : s.Inv)
    (hr : Run (step dev) s tr s') {i : Nat} {q' : IOQueuePair} (hq' : s'.hs.qps[i]? = some q') :
    ∃ q, s.hs.qps[i]? = some q ∧ Grows q.pair q'.pair := by
  induction hr with
  | refl => exact ⟨q', hq', .refl _⟩
  | @cons s s₁ s₂ l tr hs _ ih =>
    obtain ⟨q₁, hq₁, hg⟩ := ih (step_inv h hs) hq'
    rcases step_cases hs with he | ⟨j, q, pair, hq, he, hinv, -⟩
    · rw [he] at hq₁
      exact ⟨q₁, hq₁, hg⟩
    · rw [he, List.getElem?_set] at hq₁
      split at hq₁
      · rename_i hji
        subst hji
        split at hq₁
        · cases hq₁
          obtain ⟨n, hn⟩ := h q (List.mem_of_getElem? hq)
          exact ⟨q, hq, (hinv n hn).2.trans hg⟩
        · cases hq₁
      · exact ⟨q₁, hq₁, hg⟩

theorem Inv.of_fresh {hs : HandleState} (h : hs.Fresh) (t : Nat) : Inv ⟨hs, t⟩ :=
  fun q hq => ⟨0, (h.pairs q hq).inv.1⟩

end IoSys

/-! ## A sample handle -/

/-- A queue pair of depth 64 after registration. -/
def sampleQp : Qp :=
  .create ⟨1, 64, 64, 0, 0, 0, true, true, some (sqDbl 1 0), 0, 0⟩
    ⟨1, 16, 64, 0, 0, 0, true, true, some (cqDbl 1 0), 0, 0⟩ 0

/-- A handle with that queue pair, 512-byte blocks, 4 KiB pages and a timeout of 500 ms. -/
def sampleHandle : HandleState where
  fd := 3
  ctrlId := 0
  ctrl := ⟨4096, 0, 500, 1024⟩
  aq := .create ⟨0, 64, 64, 0, 0, 0, true, true, some (sqDbl 0 0), 0, 0⟩
    ⟨0, 16, 256, 0, 0, 0, true, true, some (cqDbl 0 0), 0, 0⟩ 0
  aqDma := none
  nsId := 1
  blockSize := 512
  maxTransferSize := 0
  numQps := 1
  qps := [⟨sampleQp, none, none, none⟩]
  rrCounter := 0

theorem sampleHandle_fresh : sampleHandle.Fresh := by
  refine ⟨rfl, by decide, by decide, ?_⟩
  intro q hq
  rw [List.mem_singleton.mp hq]
  exact ⟨⟨4096, 0, 500, 1024⟩, 1, 6, 0, true, 0, _, 1, 64, 0, true, 0, _, by decide, by decide, rfl,
    rfl, rfl⟩

theorem sampleQp_idle : sampleQp.Idle :=
  (sampleHandle_fresh.pairs _ (List.mem_singleton_self _)).inv.2

/-! The arguments of sample calls are in range. -/

theorem sampleBase_lt : 0x200000 < 2 ^ 64 := by decide

theorem sampleSize_lt : 512 < 2 ^ 64 := by decide

/-- A registered buffer of one page, and the call that reads one block into it. -/
def sampleDma : NvmDma := ⟨0, true, true, 4096, [0x100000#64], 0⟩

def sampleCall : IoCall where
  reg := some sampleDma
  mapDevice := fun _ _ => .error .ENOMEM
  args := ⟨0x200000, 512, 0, 0, NVM_IO_READ, sampleBase_lt, sampleSize_lt, zeroOffset_lt, zeroOffset_lt⟩

/-! ## Whose completions a call takes -/

/-- A call relies on its own completions: if it returns its size, then at its return a completion
with status 0 has been posted for each command it submitted, and in no later state has another
status been posted for one of them. -/
def OwnCompletions (dev : Device) (s : IoSys) (c : IoCall) : Prop :=
  ∀ r q q', s.call dev c = some r → r.ret = c.args.size →
    s.hs.qps[s.hs.qpIdx]? = some q → r.hs.qps[s.hs.qpIdx]? = some q' →
    q'.pair.Succeeded q.pair.cmds.length q'.pair.cmds.length ∧
      ∀ tr s' q'', Run (IoSys.step dev) ⟨r.hs, r.t⟩ tr s' → s'.hs.qps[s.hs.qpIdx]? = some q'' →
        ∀ p ∈ q''.pair.posted, q.pair.cmds.length ≤ p.seq → p.seq < q'.pair.cmds.length →
          p.cpl.status = 0

/-- No command is outstanding on the queue pair that the next call will use. -/
def StartsIdle (s : IoSys) : Prop :=
  ∀ q, s.hs.qps[s.hs.qpIdx]? = some q → q.pair.sq.q.head = q.pair.sq.q.tail

/-- No command is completed twice. -/
theorem Nvm.Qp.Inv.seq_inj {qp : Qp} {n : Nat} (h : qp.Inv n) {p p' : Post} (hp : p ∈ qp.posted)
    (hp' : p' ∈ qp.posted) (he : p.seq = p'.seq) : p = p' := by
  have hnd : (qp.posted.map Post.seq).Nodup :=
    (List.nodup_append.mp (h.seqs.nodup_iff.mpr List.nodup_range)).1
  exact List.inj_on_of_nodup_map hnd hp hp' he

/-- In every run of calls on a registered handle, whatever the controller does and however late it
does it, a call that starts with `sq.head == sq.tail` on its queue pair relies on its own
completions. -/
theorem do_io_own_completions (dev : Device) (hs₀ : HandleState) (t₀ : Nat) (h₀ : hs₀.Fresh)
    (tr : List (IoSys × IoStep)) (s : IoSys) (hr : Run (IoSys.step dev) ⟨hs₀, t₀⟩ tr s)
    (hidle : StartsIdle s) (c : IoCall) : OwnCompletions dev s c := by
  intro r q q' hcall hret hq hq'
  have hinv : s.Inv := IoSys.run_inv (.of_fresh h₀ t₀) hr
  obtain ⟨n, hn⟩ := hinv q (List.mem_of_getElem? hq)
  have hqi : q.pair.Idle := hn.idle_iff.mpr (hidle q hq)
  have hstep : s.step dev (.call c) = some ⟨r.hs, r.t⟩ := by simp [IoSys.step, hcall]
  have hsucc : q'.pair.Succeeded q.pair.cmds.length q'.pair.cmds.length := by
    rcases doIo_cases hcall with ⟨hneg, -⟩ |
      ⟨dma, fly, start, q₁, ret, t', pair, hv, -, hq₁, hl, rfl⟩
    · omega
    · rw [hq₁] at hq
      cases hq
      have hlt := (List.getElem?_eq_some_iff.mp hq₁).1
      rw [List.getElem?_set_self hlt] at hq'
      cases hq'
      have hpos : 0 < ret := by
        have := hv.size_pos
        simp only at hret
        omega
      exact ((ioLoop_from_idle hqi hl).2 hpos).2
  refine ⟨hsucc, ?_⟩
  intro tr' s' q'' hr' hq'' p hp hlo hhi
  have hinv' : IoSys.Inv ⟨r.hs, r.t⟩ := IoSys.step_inv hinv hstep
  obtain ⟨q₂, hq₂, hg⟩ := IoSys.run_grows hinv' hr' hq''
  rw [hq'] at hq₂
  cases hq₂
  obtain ⟨p', hp', hseq, hst⟩ := hsucc p.seq hlo hhi
  obtain ⟨n', hn'⟩ := IoSys.run_inv hinv' hr' q'' (List.mem_of_getElem? hq'')
  rw [← hn'.seq_inj (hg.posted.subset hp') hp hseq]
  exact hst

/-- On the sample handle with a controller that answers: the call starts idle and returns its
size. -/
theorem do_io_own_completions_prompt :
    OwnCompletions Device.prompt ⟨sampleHandle, 0⟩ sampleCall ∧
      ((IoSys.mk sampleHandle 0).call Device.prompt sampleCall).map IoResult.ret = some 512 := by
  refine ⟨do_io_own_completions Device.prompt sampleHandle 0 sampleHandle_fresh [] _ .refl ?_
    sampleCall, rfl⟩
  intro q hq
  cases hq
  rfl

/-! ## A late completion -/

/-- A controller that is silent for the first call's polls, and then fetches and completes one
command before each poll. -/
def lateDevice : Device := fun t _ => if t ≤ 500000000 then [] else [.fetch, .complete 0 .zero]

/-- A queue pair with its submission tail moved. -/
def Nvm.Qp.withTail (qp : Qp) (tail : Nat) : Qp :=
  { qp with sq := { qp.sq with q := { qp.sq.q with tail := tail } } }

/-- The queue pair after the first call: its command is submitted. -/
def lateQp : Qp :=
  ((sampleQp.withTail 1).put 0 (rwCmd sampleHandle NVM_IO_READ 512 0 1 0x100000#64 0)).submit

theorem lateQp_inv : lateQp.Inv 0 := by
  obtain ⟨slot, r, he, hi⟩ := sampleQp_idle.issue sampleQp_idle.has_room
  cases he
  exact hi _ _

/-- The state after the first call. -/
def afterTimeout : IoSys where
  hs := { sampleHandle with rrCounter := 1, qps := [⟨lateQp, none, none, none⟩] }
  t := 500000001

theorem sample_poll_times_out :
    busyPoll lateDevice sampleHandle.spins 0 lateQp = (none, 500000001, lateQp) := by
  have hspins : sampleHandle.spins = 500000000 := by decide
  rw [hspins]
  exact Qp.busyPoll_silent lateQp_inv rfl 500000000 0
    (fun t' _ _ h => by rw [lateDevice, if_pos (by omega)])

theorem sample_loop_times_out :
    ioLoop lateDevice sampleHandle sampleDma NVM_IO_READ 512 1 0 0 0 0 sampleQp =
      some (-5, 500000001, lateQp) := by
  have hchunk : ioChunk lateDevice sampleHandle sampleDma NVM_IO_READ 512 0 0 0 sampleQp =
      some (false, 500000001, lateQp) := by
    have hslot : drainEnqueue lateDevice sampleHandle.spins 2 0 sampleQp =
        some (some 0, 0, sampleQp.withTail 1) := rfl
    exact ioChunk_timeout hslot rfl sample_poll_times_out
  have hsize : sampleHandle.chunkSize (512 - 0) = 512 := rfl
  rw [ioLoop, if_neg (by decide)]
  simp only [hsize, hchunk, if_neg (by decide : ¬512 = 0)]
  rfl

theorem sample_times_out :
    (IoSys.mk sampleHandle 0).call lateDevice sampleCall =
      some ⟨-5, 500000001, afterTimeout.hs, some sampleDma, none⟩ := by
  have hv : sampleCall.args.Valid sampleHandle := by constructor <;> decide
  rw [IoSys.call, doIo_valid _ _ hv (show ioBuffer _ _ _ _ = .ok (sampleDma, false, 0) from rfl)
    (by decide) (show sampleHandle.qps[sampleHandle.qpIdx]? = some _ from rfl)]
  simp only [sampleCall]
  rw [show (512 / sampleHandle.blockSize) = 1 from rfl,
    show ((0 : Int).toNat / sampleHandle.blockSize) = 0 from rfl, sample_loop_times_out]
  rfl

/-- The second call's queue pair right after its doorbell, and after it has taken the entry that
the controller posted for the first call's command. -/
def secondQp : Qp :=
  ((lateQp.withTail 2).put 1 (rwCmd sampleHandle NVM_IO_READ 512 0 2 0x100000#64 0)).submit

def staleQp : Qp := ((lateDevice.tick 500000001 secondQp).dequeue.2).retire

theorem sample_second_call :
    afterTimeout.call lateDevice sampleCall =
      some ⟨512, 500000002, { sampleHandle with
        rrCounter := 2, qps := [⟨staleQp, none, none, none⟩] }, some sampleDma, none⟩ := by
  have hchunk : ioChunk lateDevice afterTimeout.hs sampleDma NVM_IO_READ 512 0 0 500000001 lateQp =
      some (true, 500000002, staleQp) := by
    have hslot : drainEnqueue lateDevice afterTimeout.hs.spins 2 500000001 lateQp =
        some (some 1, 500000001, lateQp.withTail 2) := rfl
    have hpoll : busyPoll lateDevice afterTimeout.hs.spins 500000001 secondQp = _ :=
      Qp.busyPoll_now rfl
    exact ioChunk_completed hslot rfl hpoll
  have hsize : afterTimeout.hs.chunkSize (512 - 0) = 512 := rfl
  have hloop : ioLoop lateDevice afterTimeout.hs sampleDma NVM_IO_READ 512 1 0 0 0 500000001 lateQp =
      some (512, 500000002, staleQp) := by
    rw [ioLoop, if_neg (by decide)]
    simp only [hsize, hchunk, if_neg (by decide : ¬512 = 0)]
    rw [ioLoop, if_pos (by decide)]
    rfl
  have hv : sampleCall.args.Valid afterTimeout.hs := by constructor <;> decide
  rw [IoSys.call, doIo_valid _ _ hv (show ioBuffer _ _ _ _ = .ok (sampleDma, false, 0) from rfl)
    (by decide) (show afterTimeout.hs.qps[afterTimeout.hs.qpIdx]? = some _ from rfl)]
  simp only [sampleCall]
  rw [show (512 / afterTimeout.hs.blockSize) = 1 from rfl,
    show ((0 : Int).toNat / afterTimeout.hs.blockSize) = 0 from rfl,
    show afterTimeout.t = 500000001 from rfl, hloop]
  rfl

/-- The first call's completion, posted after that call gave up, makes the second call return its
size: the only completion posted so far is that of command 0, the second call's command is number
1. -/
theorem do_io_stale_completion :
    ¬ ∀ (dev : Device) (hs₀ : HandleState) (t₀ : Nat), hs₀.Fresh →
      ∀ (tr : List (IoSys × IoStep)) (s : IoSys), Run (IoSys.step dev) ⟨hs₀, t₀⟩ tr s →
        ∀ c, OwnCompletions dev s c := by
  intro h
  have hrun : Run (IoSys.step lateDevice) ⟨sampleHandle, 0⟩
      [(⟨sampleHandle, 0⟩, .call sampleCall)] afterTimeout :=
    Run.single (by rw [IoSys.step, sample_times_out]; rfl)
  have hown := h lateDevice sampleHandle 0 sampleHandle_fresh _ _ hrun sampleCall
  obtain ⟨hsucc, -⟩ := hown _ _ _ sample_second_call rfl rfl rfl
  obtain ⟨p, hp, hseq, -⟩ := hsucc 1 (by decide) (by decide)
  have hposted : staleQp.posted.map Post.seq = [0] := rfl
  have := List.mem_map_of_mem (f := Post.seq) hp
  rw [hseq, hposted] at this
  simp at this

end UGDS
