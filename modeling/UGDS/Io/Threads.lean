import UGDS.Io.Outcome

/-!
# UGDS.Io.Threads

`do_io` called by any number of threads on one handle, with the queue pairs' locks.

A call looks up its buffer and takes a queue pair from the round-robin counter (`enter`), waits for
the pair's lock (`lock`), and then goes through the critical section step by step (`advance`): a
turn of the loop up to the doorbell, or one poll of the completion queue with the updates after it.
Between any two steps the controller may act on any pair (`device`), and calls on different pairs
interleave in any order.

`sent` and `taken` record, for each call, the numbers of the commands it submitted and the
completion entries its polls returned; no function of the source reads them. `owner` is who holds
the lock of each pair.

* `Threads.timely`: the last poll that a call has left finds an entry.
* `Inside`: a call in its critical section is on the way to one of its outcomes.
* `Inside.advance`: so is it after a step of its own, or it has returned and the pair is idle.
* `Inside.stuck`, `Inside.work_lt`: it is stuck only where it has no defined outcome, and each step
  brings it closer to its end.
-/

namespace UGDS

open Nvm Lib

/-! ## Before the critical section -/

/-- The checks at the top of `do_io` and the lookup of the buffer. -/
def ioAdmit (hs : HandleState) (c : IoCall) : Except Errno (NvmDma × Bool × Nat) :=
  let a := c.args
  if a.base = 0 ∨ a.size = 0 then .error .EINVAL
  else if a.fileOffset < 0 ∨ a.bufOffset < 0 then .error .EINVAL
  else if hs.blockSize = 0 then .error .EINVAL
  else if a.fileOffset.toNat % hs.blockSize ≠ 0 ∨ a.size % hs.blockSize ≠ 0 then .error .EINVAL
  else if hs.ctrl.pageSize = 0 then .error .EINVAL
  else ioBuffer hs c.reg c.mapDevice a

section Admit

variable {hs : HandleState} {c : IoCall}

theorem doIo_refused {e : Errno} (h : ioAdmit hs c = .error e) (dev : Device) (t : Nat) :
    doIo dev t hs c.reg c.mapDevice c.args = some ⟨-e.code, t, hs, none, none⟩ := by
  revert h
  simp only [ioAdmit, doIo]
  split
  · intro h; cases h; rfl
  split
  · intro h; cases h; rfl
  split
  · intro h; cases h; rfl
  split
  · intro h; cases h; rfl
  split
  · intro h; cases h; rfl
  intro h
  rw [h]

theorem ioAdmit_ok {x : NvmDma × Bool × Nat} (h : ioAdmit hs c = .ok x) :
    c.args.Valid hs ∧ ioBuffer hs c.reg c.mapDevice c.args = .ok x := by
  simp only [ioAdmit] at h
  split at h
  · cases h
  split at h
  · cases h
  split at h
  · cases h
  split at h
  · cases h
  split at h
  · cases h
  exact ⟨by constructor <;> omega, h⟩

end Admit

/-- The turns of a call when all of them succeed. -/
def IoCall.reqs (hs : HandleState) (c : IoCall) : List Req :=
  match ioAdmit hs c with
  | .error _ => []
  | .ok (_, _, start) =>
    ioReqs hs c.args.size (c.args.size / hs.blockSize) 0
      (c.args.fileOffset.toNat / hs.blockSize) start

/-! ## The critical section -/

/-- Where a call stands: at the head of the loop, polling for a completion that frees a slot, or
polling for the completion of the command of the current chunk. `left` polls may still fail. -/
inductive Phase where
  | top
  | full (left : Nat)
  | sent (chunk left : Nat)

def Phase.left : Phase → Option Nat
  | .top => none
  | .full left => some left
  | .sent _ left => some left

/-- The variables of the loop. -/
structure IoLocals where
  bytesDone : Nat
  lba : Nat
  page : Nat
  phase : Phase

/-- Staying in the loop, or leaving it with a result. -/
inductive Next where
  | loop (l : IoLocals)
  | out (ret : Int)

/-- The effect of one step inside the critical section. -/
structure Turn where
  next : Next
  qp : Qp
  sent : List Nat
  taken : List NvmCpl

namespace IoLocals

variable (hs : HandleState) (dma : NvmDma) (opcode : BitVec 8) (size : Nat)

/-- One poll. `found` is what follows when the entry has status 0, `again` when the queue is empty
and a further poll is allowed. -/
def poll (found : IoLocals) (again : Nat → IoLocals) (left : Nat) (qp : Qp) : Turn :=
  match qp.dequeue with
  | (some cpl, qp) =>
    ⟨if cpl.status ≠ 0 then .out (-Errno.code Errno.EIO) else .loop found, qp.retire, [], [cpl]⟩
  | (none, qp) =>
    match left with
    | 0 => ⟨.out (-Errno.code Errno.EIO), qp, [], []⟩
    | left + 1 => ⟨.loop (again left), qp, [], []⟩

def advance (l : IoLocals) (qp : Qp) : Option Turn :=
  match l.phase with
  | .top =>
    if size ≤ l.bytesDone then some ⟨.out (ssize l.bytesDone), qp, [], []⟩
    else
      let chunk := hs.chunkSize (size - l.bytesDone)
      if chunk = 0 then some ⟨.out (-Errno.EINVAL.code), qp, [], []⟩
      else
        match qp.enqueue with
        | none => some ⟨.loop { l with phase := .full hs.spins }, qp, [], []⟩
        | some (slot, qp₁) =>
          match ioIssue hs dma opcode chunk l.lba l.page slot qp₁ with
          | none => none
          | some qp₂ =>
            some ⟨.loop { l with phase := .sent chunk hs.spins }, qp₂, [qp.cmds.length], []⟩
  | .full left =>
    some (poll { l with phase := .top } (fun left => { l with phase := .full left }) left qp)
  | .sent chunk left =>
    some (poll ⟨l.bytesDone + chunk, l.lba + chunk / hs.blockSize,
      l.page + hs.chunkPages chunk, .top⟩ (fun left => { l with phase := .sent chunk left }) left qp)

end IoLocals

/-! ## Threads -/

/-- Where a call stands: waiting for the lock of its queue pair, holding it, or done. -/
inductive Stage where
  | waiting (dma : NvmDma) (start : Nat)
  | inside (dma : NvmDma) (l : IoLocals)
  | returned (ret : Int)

structure IoThread where
  io : IoCall
  qp : Nat
  stage : Stage
  sent : List Nat
  taken : List NvmCpl

structure Threads where
  hs : HandleState
  owner : Nat → Option Nat
  calls : List IoThread

namespace Threads

inductive Move where
  | enter (io : IoCall)
  | lock (j : Nat)
  | advance (j : Nat)
  | device (i : Nat) (act : DevAct)

/-- Is this a step of call `j` in its critical section? -/
def Move.advances (j : Nat) : Move → Bool
  | .advance j' => j' == j
  | _ => false

def init (hs : HandleState) : Threads := ⟨hs, fun _ => none, []⟩

/-- The handle with queue pair `i` changed. -/
def setPair (hs : HandleState) (i : Nat) (q : IOQueuePair) (pair : Qp) : HandleState :=
  { hs with qps := hs.qps.set i { q with pair := pair } }

/-- A call after a step of its own. -/
def advanced (c : IoThread) (dma : NvmDma) (t : Turn) : IoThread :=
  { c with
    stage := match t.next with
      | .loop l => .inside dma l
      | .out ret => .returned ret
    sent := c.sent ++ t.sent
    taken := c.taken ++ t.taken }

def step (s : Threads) : Move → Option Threads
  | .enter io =>
    match ioAdmit s.hs io with
    | .error e =>
      -- refused before it has a queue pair; the index recorded is that of the next call
      some { s with calls := s.calls ++ [⟨io, s.hs.qpIdx, .returned (-e.code), [], []⟩] }
    | .ok (dma, _, start) =>
      if s.hs.numQps = 0 then none
      else
        some { s with
          hs := { s.hs with rrCounter := u32 (s.hs.rrCounter + 1) }
          calls := s.calls ++ [⟨io, s.hs.qpIdx, .waiting dma start, [], []⟩] }
  | .lock j =>
    match s.calls[j]? with
    | none => none
    | some c =>
      match c.stage, s.owner c.qp with
      | .waiting dma start, none =>
        let l : IoLocals := ⟨0, c.io.args.fileOffset.toNat / s.hs.blockSize, start, .top⟩
        some { s with
          owner := Function.update s.owner c.qp (some j)
          calls := s.calls.set j { c with stage := .inside dma l } }
      | _, _ => none
  | .advance j =>
    match s.calls[j]? with
    | none => none
    | some c =>
      match c.stage, s.hs.qps[c.qp]? with
      | .inside dma l, some q =>
        match l.advance s.hs dma c.io.args.opcode c.io.args.size q.pair with
        | none => none
        | some t =>
          some {
            hs := setPair s.hs c.qp q t.qp
            owner := match t.next with
              | .loop _ => s.owner
              | .out _ => Function.update s.owner c.qp none
            calls := s.calls.set j (advanced c dma t) }
      | _, _ => none
  | .device i act =>
    match s.hs.qps[i]? with
    | none => none
    | some q => some { s with hs := setPair s.hs i q (q.pair.devStep act) }

section Step

variable {s s' : Threads}

theorem step_enter {io : IoCall} (h : s.step (.enter io) = some s') :
    ∃ stage rr, s' = ⟨{ s.hs with rrCounter := rr }, s.owner,
        s.calls ++ [⟨io, s.hs.qpIdx, stage, [], []⟩]⟩ ∧
      ((∃ e, ioAdmit s.hs io = .error e ∧ stage = .returned (-e.code)) ∨
        ∃ dma fly start, ioAdmit s.hs io = .ok (dma, fly, start) ∧ stage = .waiting dma start) := by
  simp only [step] at h
  split at h
  · rename_i e he
    cases h
    exact ⟨_, s.hs.rrCounter, rfl, .inl ⟨e, he, rfl⟩⟩
  · rename_i dma fly start he
    split at h
    · cases h
    · cases h
      exact ⟨_, _, rfl, .inr ⟨dma, fly, start, he, rfl⟩⟩

theorem step_lock {j : Nat} (h : s.step (.lock j) = some s') :
    ∃ c dma start, s.calls[j]? = some c ∧ c.stage = .waiting dma start ∧ s.owner c.qp = none ∧
      s' = ⟨s.hs, Function.update s.owner c.qp (some j), s.calls.set j { c with
        stage := .inside dma ⟨0, c.io.args.fileOffset.toNat / s.hs.blockSize, start, .top⟩ }⟩ := by
  simp only [step] at h
  split at h
  · cases h
  · rename_i c hc
    split at h
    · rename_i dma start hst hfree
      cases h
      exact ⟨c, dma, start, hc, hst, hfree, rfl⟩
    · cases h

theorem step_advance {j : Nat} (h : s.step (.advance j) = some s') :
    ∃ c dma l q t, s.calls[j]? = some c ∧ c.stage = .inside dma l ∧ s.hs.qps[c.qp]? = some q ∧
      l.advance s.hs dma c.io.args.opcode c.io.args.size q.pair = some t ∧
      s' = ⟨setPair s.hs c.qp q t.qp, match t.next with
        | .loop _ => s.owner
        | .out _ => Function.update s.owner c.qp none, s.calls.set j (advanced c dma t)⟩ := by
  simp only [step] at h
  split at h
  · cases h
  · rename_i c hc
    split at h
    · rename_i dma l q hst hq
      split at h
      · cases h
      · rename_i t ht
        cases h
        exact ⟨c, dma, l, q, t, hc, hst, hq, ht, rfl⟩
    · cases h

theorem step_device {i : Nat} {a : DevAct} (h : s.step (.device i a) = some s') :
    ∃ q, s.hs.qps[i]? = some q ∧
      s' = ⟨setPair s.hs i q (q.pair.devStep a), s.owner, s.calls⟩ := by
  simp only [step] at h
  split at h
  · cases h
  · rename_i q hq
    cases h
    exact ⟨q, hq, rfl⟩

end Step

/-- The controller is in time: a call that has only one poll left finds an entry. -/
def timely (s : Threads) : Move → Bool
  | .advance j =>
    match s.calls[j]? with
    | none => true
    | some c =>
      match c.stage, s.hs.qps[c.qp]? with
      | .inside _ l, some q => l.phase.left != some 0 || q.pair.dequeue.1.isSome
      | _, _ => true
  | _ => true

/-! ## One call in its critical section -/

/-- `ds` are the completions that a call has consumed, each the one posted for the command of its
number. -/
structure Consumed (pair : Qp) (c : IoThread) (ds : List Post) : Prop where
  taken : c.taken = ds.map Post.cpl
  posted : ∀ d ∈ ds, pair.posted[d.seq]? = some d

/-- What the phase says about the pair, on which `n` completions have been consumed: at the head of
the loop nothing is outstanding, and while the call polls its one command is. A full ring is never
met. -/
def AtPhase (hs : HandleState) (pair : Qp) (c : IoThread) (dma : NvmDma) (l : IoLocals)
    (ds : List Post) (n : Nat) : Prop :=
  match l.phase with
  | .top => pair.cmds.length = n ∧ c.sent = ds.map Post.seq
  | .full _ => False
  | .sent chunk _ =>
    pair.cmds.length = n + 1 ∧ c.sent = ds.map Post.seq ++ [n] ∧
      l.bytesDone < c.io.args.size ∧ chunk = hs.chunkSize (c.io.args.size - l.bytesDone) ∧
      chunk ≠ 0 ∧ ∃ cmd, pair.cmds[n]? = some cmd ∧
        Made hs dma c.io.args.opcode pair.prpAddr ⟨chunk, l.lba, l.page⟩ (cmd, pair.prp)

/-- The outcomes of a call from its start. -/
def Outcome (hs : HandleState) (prpAddr : BitVec 64) (io : IoCall) (dma : NvmDma) (start : Nat)
    (ds : List Post) (o : Option Int) : Prop :=
  LoopOutcome hs dma io.args.opcode io.args.size prpAddr 0
    (io.args.fileOffset.toNat / hs.blockSize) start ds o

/-- A call in its critical section: whatever the rest of the loop does, with what was consumed
before it makes an outcome of the call. -/
structure Inside (hs : HandleState) (pair : Qp) (c : IoThread) (dma : NvmDma) (l : IoLocals)
    (ds : List Post) (n : Nat) : Prop where
  serial : pair.Serial n
  consumed : Consumed pair c ds
  phase : AtPhase hs pair c dma l ds n
  before : ∃ fly start, ioAdmit hs c.io = .ok (dma, fly, start) ∧ ∀ ds' o,
    LoopOutcome hs dma c.io.args.opcode c.io.args.size pair.prpAddr l.bytesDone l.lba l.page ds' o →
      Outcome hs pair.prpAddr c.io dma start (ds ++ ds') o

/-- A call that has returned, before or after its critical section. -/
structure Returned (hs : HandleState) (pair : Qp) (c : IoThread) (ret : Int) (ds : List Post) :
    Prop where
  consumed : Consumed pair c ds
  sent : c.sent = ds.map Post.seq
  outcome : (∃ e, ioAdmit hs c.io = .error e ∧ ret = -e.code ∧ ds = []) ∨
    ∃ dma fly start, ioAdmit hs c.io = .ok (dma, fly, start) ∧
      Outcome hs pair.prpAddr c.io dma start ds (some ret)

section Call

variable {hs : HandleState} {pair pair' : Qp} {c : IoThread} {dma : NvmDma} {l : IoLocals}
  {ds : List Post} {n : Nat} {t : Turn}

theorem Consumed.mono (h : Consumed pair c ds) (hp : pair.posted <+: pair'.posted) :
    Consumed pair' c ds := by
  refine ⟨h.taken, fun d hd => ?_⟩
  have := h.posted d hd
  obtain ⟨hlt, -⟩ := List.getElem?_eq_some_iff.mp this
  obtain ⟨new, hnew⟩ := hp
  rw [← hnew, List.getElem?_append_left hlt]
  exact this

theorem Returned.mono {ret : Int} (h : Returned hs pair c ret ds)
    (hp : pair.posted <+: pair'.posted) (ha : pair'.prpAddr = pair.prpAddr) :
    Returned hs pair' c ret ds := by
  refine ⟨h.consumed.mono hp, h.sent, ?_⟩
  rw [ha]
  exact h.outcome

/-- The controller acts while the call is in its critical section. -/
theorem Inside.devStep (h : Inside hs pair c dma l ds n) (a : DevAct) :
    Inside hs (pair.devStep a) c dma l ds n := by
  have hm : Qp.Moved (fun _ _ => [a]) pair (pair.devStep a) :=
    @Qp.moved_devStep (fun _ _ => [a]) 0 pair a (List.mem_singleton_self a) pair
  refine ⟨h.serial.devStep a, h.consumed.mono (Grows.of_moved hm).posted, ?_, ?_⟩
  · have hph := h.phase
    unfold AtPhase at hph ⊢
    rw [hm.cmds, hm.prpAddr, hm.prp]
    exact hph
  · rw [hm.prpAddr]
    exact h.before

/-- What a step inside leads to. -/
def After (hs : HandleState) (qp : Qp) (c : IoThread) (dma : NvmDma) : Next → Prop
  | .loop l => ∃ ds n, Inside hs qp c dma l ds n
  | .out ret => qp.Serial qp.cmds.length ∧ ∃ ds, Returned hs qp c ret ds

/-- Leaving the loop from its head. -/
theorem Inside.leave (h : Inside hs pair c dma l ds n) (htop : l.phase = .top) {ret : Int}
    (ho : LoopOutcome hs dma c.io.args.opcode c.io.args.size pair.prpAddr l.bytesDone l.lba l.page
      [] (some ret)) :
    After hs pair (advanced c dma ⟨.out ret, pair, [], []⟩) dma (.out ret) := by
  have hph := h.phase
  simp only [AtPhase, htop] at hph
  obtain ⟨hlen, hsent⟩ := hph
  obtain ⟨fly, start, hadm, hbefore⟩ := h.before
  have hout := hbefore [] (some ret) ho
  rw [List.append_nil] at hout
  refine ⟨by rw [hlen]; exact h.serial, ds, ⟨?_, h.consumed.posted⟩, ?_,
    .inr ⟨dma, fly, start, hadm, hout⟩⟩
  · simpa [advanced] using h.consumed.taken
  · simpa [advanced] using hsent

/-- The command of a chunk is submitted. -/
theorem Inside.submit (h : Inside hs pair c dma l ds n) (htop : l.phase = .top) {chunk : Nat}
    (hlt : l.bytesDone < c.io.args.size)
    (hc : chunk = hs.chunkSize (c.io.args.size - l.bytesDone)) (hne : chunk ≠ 0) {slot : Nat}
    {r : SqRing} {qp₂ : Qp} {cpls : Nat}
    (hserial : ∀ prp cmd, (({ pair with sq := r, prp := prp } : Qp).put slot cmd).submit.Serial n)
    (he : ioIssue hs dma c.io.args.opcode chunk l.lba l.page slot { pair with sq := r } =
      some qp₂) :
    qp₂.prpAddr = pair.prpAddr ∧ qp₂.posted = pair.posted ∧
      After hs qp₂ (advanced c dma ⟨.loop { l with phase := .sent chunk cpls }, qp₂,
        [pair.cmds.length], []⟩) dma (.loop { l with phase := .sent chunk cpls }) := by
  have hph := h.phase
  simp only [AtPhase, htop] at hph
  obtain ⟨hlen, hsent⟩ := hph
  obtain ⟨cid, prp1, prp2, prp, hptr, rfl⟩ := ioIssue_put he
  refine ⟨rfl, rfl, ds, n, hserial prp _, ⟨?_, h.consumed.posted⟩, ?_, h.before⟩
  · simpa [advanced] using h.consumed.taken
  · refine ⟨?_, ?_, hlt, hc, hne, _, ?_, cid, prp1, prp2, pair.prp, rfl, hptr⟩
    · simp [Qp.submit, Qp.put, hlen]
    · simp [advanced, hsent, hlen]
    · rw [← hlen]
      exact List.getElem?_concat_length

/-- One poll by a call whose command is outstanding. -/
theorem Inside.poll {chunk left : Nat} (h : Inside hs pair c dma l ds n)
    (hsent : l.phase = .sent chunk left) (ht : left = 0 → pair.dequeue.1 ≠ none)
    (he : t = IoLocals.poll ⟨l.bytesDone + chunk, l.lba + chunk / hs.blockSize,
      l.page + hs.chunkPages chunk, .top⟩ (fun k => { l with phase := .sent chunk k }) left pair) :
    t.qp.prpAddr = pair.prpAddr ∧ t.qp.posted = pair.posted ∧
      After hs t.qp (advanced c dma t) dma t.next := by
  have hph := h.phase
  simp only [AtPhase, hsent] at hph
  obtain ⟨hlen, hs', hlt, hc, hne, cmd, hcmd, hmade⟩ := hph
  obtain ⟨fly, start, hadm, hbefore⟩ := h.before
  by_cases hp : n < pair.posted.length
  · obtain ⟨p, r, hd, hget, hseq, hpc, hprp, -, hser⟩ := h.serial.consume hp
    rw [hcmd] at hpc
    cases hpc
    rw [← hprp] at hmade
    -- the entry found is that of the command outstanding
    have htaken : c.taken ++ [p.cpl] = (ds ++ [p]).map Post.cpl := by simp [h.consumed.taken]
    have hseqs : c.sent ++ [] = (ds ++ [p]).map Post.seq := by simp [hs', hseq]
    have hposted : ∀ d ∈ ds ++ [p], pair.posted[d.seq]? = some d := by
      intro d hd
      rcases List.mem_append.mp hd with hd | hd
      · exact h.consumed.posted d hd
      · rw [List.mem_singleton.mp hd, hseq]
        exact hget
    simp only [IoLocals.poll, hd] at he
    subst he
    by_cases hst : p.cpl.status = 0
    · simp only [hst, ne_eq, not_true_eq_false, if_false]
      refine ⟨rfl, rfl, ds ++ [p], n + 1, hser, ⟨htaken, hposted⟩, ⟨hlen, hseqs⟩,
        fly, start, hadm, ?_⟩
      intro ds' o ho
      have := hbefore (p :: ds') o (.turn hlt hc hne hmade hst ho)
      rwa [← List.append_cons]
    · simp only [ne_eq, hst, not_false_eq_true, if_true]
      refine ⟨rfl, rfl, ?_, ds ++ [p], ⟨htaken, hposted⟩, hseqs, .inr ⟨dma, fly, start, hadm, ?_⟩⟩
      · simp only [Qp.retire, hlen]
        exact hser
      · exact hbefore [p] _ (.failed hlt hc hne hmade hst)
  · have hmiss := h.serial.miss (by have := h.serial.inv.counts; omega)
    simp only [IoLocals.poll, hmiss] at he
    cases left with
    | zero =>
      rw [hmiss] at ht
      exact absurd rfl (ht rfl)
    | succ left =>
      subst he
      refine ⟨rfl, rfl, ds, n, h.serial, ⟨?_, h.consumed.posted⟩, ?_, h.before⟩
      · simpa [advanced] using h.consumed.taken
      · exact ⟨hlen, by simpa [advanced] using hs', hlt, hc, hne, cmd, hcmd, hmade⟩

/-- A step of the call keeps it on the way to an outcome, or ends it with the pair idle. -/
theorem Inside.advance (h : Inside hs pair c dma l ds n)
    (ht : l.phase.left = some 0 → pair.dequeue.1 ≠ none)
    (he : l.advance hs dma c.io.args.opcode c.io.args.size pair = some t) :
    t.qp.prpAddr = pair.prpAddr ∧ t.qp.posted = pair.posted ∧
      After hs t.qp (advanced c dma t) dma t.next := by
  have hph := h.phase
  cases hphase : l.phase with
  | top =>
    simp only [AtPhase, hphase] at hph
    simp only [IoLocals.advance, hphase] at he
    split at he
    · rename_i hle
      cases he
      exact ⟨rfl, rfl, h.leave hphase (.done hle)⟩
    · split at he
      · rename_i hlt hc
        cases he
        exact ⟨rfl, rfl, h.leave hphase (.small (by omega) hc)⟩
      · rename_i hlt hne
        obtain ⟨slot, r, henq, hserial⟩ := h.serial.issue hph.1
        simp only [henq] at he
        split at he
        · cases he
        · rename_i qp₂ hiss
          cases he
          exact h.submit hphase (by omega) rfl hne hserial hiss
  | full left =>
    simp only [AtPhase, hphase] at hph
  | sent chunk left =>
    simp only [IoLocals.advance, hphase] at he
    refine h.poll hphase (fun h0 => ht ?_) (Option.some.inj he).symm
    rw [hphase, h0]
    rfl

/-- A call can only be stuck on a page beyond the end of its mapping. -/
theorem Inside.stuck (h : Inside hs pair c dma l ds n)
    (he : l.advance hs dma c.io.args.opcode c.io.args.size pair = none) :
    ∃ fly start, ioAdmit hs c.io = .ok (dma, fly, start) ∧
      Outcome hs pair.prpAddr c.io dma start ds none := by
  obtain ⟨fly, start, hadm, hbefore⟩ := h.before
  refine ⟨fly, start, hadm, ?_⟩
  rw [← List.append_nil ds]
  apply hbefore
  have hph := h.phase
  cases hphase : l.phase with
  | top =>
    simp only [AtPhase, hphase] at hph
    simp only [IoLocals.advance, hphase] at he
    split at he
    · cases he
    · split at he
      · cases he
      · rename_i hlt hne
        obtain ⟨slot, r, henq, -⟩ := h.serial.issue hph.1
        simp only [henq, ioIssue] at he
        refine .undef (by omega) rfl hne fun prp => ?_
        cases hd : dataPtrs dma.ioaddrs l.page
            (hs.chunkPages (hs.chunkSize (c.io.args.size - l.bytesDone))) pair.prpAddr prp with
        | none => rfl
        | some x =>
          obtain ⟨y, hy⟩ := dataPtrs_defined hd pair.prp
          rw [hy] at he
          cases he
  | full left => simp only [AtPhase, hphase] at hph
  | sent chunk left =>
    simp only [IoLocals.advance, hphase] at he
    cases he

end Call

/-! ## A bound on the steps of a call -/

/-- How many steps a call may still take, if `spins` polls may fail for each command. -/
def work (spins : Nat) (c : IoThread) : Nat :=
  let rest (done : Nat) := (c.io.args.size - done) * (spins + 3)
  match c.stage with
  | .waiting _ _ => rest 0 + 1
  | .inside _ l =>
    match l.phase with
    | .top => rest l.bytesDone + 1
    | .full _ => 0
    | .sent _ left => rest (l.bytesDone + 1) + left + 2
  | .returned _ => 0

theorem Inside.work_lt {hs : HandleState} {pair : Qp} {c : IoThread} {dma : NvmDma} {l : IoLocals}
    {ds : List Post} {n : Nat} {t : Turn} (h : Inside hs pair c dma l ds n)
    (hst : c.stage = .inside dma l)
    (he : l.advance hs dma c.io.args.opcode c.io.args.size pair = some t) :
    work hs.spins (advanced c dma t) < work hs.spins c := by
  have hph := h.phase
  have hmono {a b : Nat} (hab : b ≤ a) :
      (c.io.args.size - a) * (hs.spins + 3) ≤ (c.io.args.size - b) * (hs.spins + 3) :=
    Nat.mul_le_mul_right _ (by omega)
  cases hphase : l.phase with
  | top =>
    simp only [AtPhase, hphase] at hph
    simp only [IoLocals.advance, hphase] at he
    simp only [work, hst, hphase]
    split at he
    · cases he
      exact Nat.succ_pos _
    · split at he
      · cases he
        exact Nat.succ_pos _
      · rename_i hlt hne
        obtain ⟨slot, r, henq, -⟩ := h.serial.issue hph.1
        simp only [henq] at he
        split at he
        · cases he
        · cases he
          -- one of the bytes left pays for the polls of this command
          have hsucc : c.io.args.size - l.bytesDone = c.io.args.size - (l.bytesDone + 1) + 1 := by
            omega
          simp only [advanced]
          rw [hsucc, Nat.add_mul]
          omega
  | full left => simp only [AtPhase, hphase] at hph
  | sent chunk left =>
    simp only [AtPhase, hphase] at hph
    have hpos := Nat.pos_of_ne_zero hph.2.2.2.2.1
    simp only [IoLocals.advance, hphase, Option.some.injEq] at he
    simp only [IoLocals.poll] at he
    split at he
    · rename_i cpl qp hd
      subst he
      by_cases hz : cpl.status = 0
      · have := @hmono (l.bytesDone + chunk) (l.bytesDone + 1) (by omega)
        simp only [advanced, work, hst, hphase, ne_eq, hz, not_true_eq_false, if_false]
        omega
      · simp only [advanced, work, hst, hphase, ne_eq, hz, not_false_eq_true, if_true]
        omega
    · split at he
      · subst he
        simp only [advanced, work, hst, hphase]
        omega
      · subst he
        simp only [advanced, work, hst, hphase]
        omega

end Threads

end UGDS
