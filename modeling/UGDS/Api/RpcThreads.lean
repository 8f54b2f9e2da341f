import Mathlib.Data.List.Forall2
import UGDS.Api.Rpc
import UGDS.Lib.Monitor

/-!
# UGDS.Api.RpcThreads

`nvm_raw_rpc` and `_nvm_local_admin` (`rpc.cpp`) called by any number of threads on one local admin
reference, under the lock of the reference.

A call takes the lock and goes through `execute_command` in steps: up to the doorbell, and then one
poll of the completion queue at a time. The controller acts between any two steps, also while nobody
has the lock. `log` records the commands and answers in the order in which `execute_command` has come
to its end; no function of the source reads it.

The model of `Api.Rpc` makes whole calls one after another, with a controller that acts at polls and
between calls. `Past` says that the calls so far could have been made in that model, and `Free` and
`Waiting` how far the present one is: a call that waits will do what `execute_command` does with a
controller that acts as this one has until now.

* `rpc_guarded`: every step keeps them.
* `answers_own`: calls one after another that do not time out return the completions of their commands.
* `rpc_calls_linear`: so do concurrent ones, in the order of the lock.
-/

namespace UGDS

open Nvm Lib

/-- The function that was called; under the lock both do the same. -/
inductive RpcFn where
  | nvmRawRpc
  | nvmLocalAdmin
  deriving DecidableEq, Repr

/-- A command and what `execute_command` has returned for it. -/
abbrev RpcAnswer : Type := NvmCmd × Except Errno NvmCpl

/-- Where a call stands; `device` is an action of the controller, which is over at once. -/
inductive RpcPoint where
  | lock (f : RpcFn) (cmd : NvmCmd)
  | exec (f : RpcFn) (cmd : NvmCmd)
  | wait (f : RpcFn) (cmd : NvmCmd) (left : Nat)
  | leave (f : RpcFn) (r : RpcAnswer)
  | done (f : RpcFn) (r : RpcAnswer)
  | device

structure RpcShared where
  pair : Qp
  log : List RpcAnswer

inductive RpcCall where
  | call (f : RpcFn) (cmd : NvmCmd)
  | device (act : DevAct)

namespace RpcPoint

def locked : RpcPoint → Bool
  | .exec .. | .wait .. | .leave .. => true
  | _ => false

/-- The answer of a call that has one. -/
def answer : RpcPoint → Option RpcAnswer
  | .leave _ r | .done _ r => some r
  | _ => none

/-- `execute_command` ends. -/
def finish (s : RpcShared) (pair : Qp) (f : RpcFn) (cmd : NvmCmd) (r : Except Errno NvmCpl) :
    RpcShared × RpcPoint :=
  (⟨pair, s.log ++ [(cmd, r)]⟩, .leave f (cmd, r))

/-- The step from a point. A local reference has `execute_command` for its stub. -/
def next (timeout : Nat) (s : RpcShared) : RpcPoint → Option (RpcShared × RpcPoint)
  | .lock f cmd => some (s, .exec f cmd)
  | .exec f cmd =>
    match s.pair.enqueue with
    | none => some (finish s s.pair f cmd (.error .EAGAIN))
    | some (slot, qp) =>
      some ({ s with pair := (qp.put slot (cmd.withCid (nvmDefaultCid qp.sq.q))).submit },
        .wait f cmd (delays timeout))
  | .wait f cmd left =>
    match s.pair.dequeue with
    | (some cpl, qp) => some (finish s qp.retire f cmd (.ok cpl))
    | (none, qp) =>
      match left with
      | 0 => some (finish s qp f cmd (.error .ETIME))
      | left + 1 => some ({ s with pair := qp }, .wait f cmd left)
  | .leave f r => some (s, .done f r)
  | .done _ _ => none
  | .device => none

end RpcPoint

/-- Where a call begins; the controller acts at once. -/
def RpcCall.start (s : RpcShared) : RpcCall → Option (RpcShared × RpcPoint)
  | .call f cmd => some (s, .lock f cmd)
  | .device act => some ({ s with pair := s.pair.devStep act }, .device)

def rpcProgram (timeout : Nat) : Program RpcShared RpcPoint Unit RpcCall where
  start := RpcCall.start
  next s p _ := p.next timeout s
  locked := RpcPoint.locked

/-! ## Calls one after another -/

/-- The answers of a run of whole calls. -/
def rpcAnswers (dev : Device) (timeout : Nat) (tr : List (Admin × RpcStep)) : List RpcAnswer :=
  tr.filterMap fun x =>
    match x.2 with
    | .call cmd => some (cmd, (executeCommand dev timeout x.1 cmd).1)
    | .device _ => none

section Sequential

variable {dev dev' : Device} {timeout : Nat} {a a' : Admin} {cmd : NvmCmd}

theorem rpcAnswers_append (tr tr' : List (Admin × RpcStep)) :
    rpcAnswers dev timeout (tr ++ tr') = rpcAnswers dev timeout tr ++ rpcAnswers dev timeout tr' :=
  List.filterMap_append

theorem nvmRawRpc_admin : (nvmRawRpc dev timeout a cmd).2.2 = (executeCommand dev timeout a cmd).2 := by
  rw [nvmRawRpc]
  rcases executeCommand dev timeout a cmd with ⟨_ | _, _⟩ <;> rfl

theorem busyPoll_le (dev : Device) (n t : Nat) (q : Qp) : t < (busyPoll dev n t q).2.1 := by
  induction n generalizing t q with
  | zero =>
    rw [busyPoll.eq_def]
    split <;> exact Nat.lt_succ_self t
  | succ n ih =>
    rw [busyPoll.eq_def]
    split
    · exact Nat.lt_succ_self t
    · exact (Nat.lt_succ_self t).trans (ih (t + 1) _)

/-- Waiting depends on what the controller does until its end only. -/
theorem busyPoll_congr (n t : Nat) (q : Qp) (h : ∀ s < (busyPoll dev n t q).2.1, dev' s = dev s) :
    busyPoll dev' n t q = busyPoll dev n t q := by
  induction n generalizing t q with
  | zero =>
    have htick : dev'.tick t q = dev.tick t q := by
      rw [Device.tick, h t (busyPoll_le dev 0 t q), Device.tick]
    rw [busyPoll.eq_def, busyPoll.eq_def dev, htick]
  | succ n ih =>
    have htick : dev'.tick t q = dev.tick t q := by
      rw [Device.tick, h t (busyPoll_le dev (n + 1) t q), Device.tick]
    rw [busyPoll.eq_def] at h
    rw [busyPoll.eq_def, busyPoll.eq_def dev, htick]
    generalize (dev.tick t q).dequeue = d at h ⊢
    obtain ⟨_ | cpl, qp⟩ := d
    · exact ih (t + 1) qp h
    · rfl

/-- What `execute_command` does with what the wait has found. -/
def execEnd : Option NvmCpl × Nat × Qp → Except Errno NvmCpl × Admin
  | (none, t, qp) => (.error .ETIME, ⟨t, qp⟩)
  | (some cpl, t, qp) => (.ok cpl, ⟨t, qp.retire⟩)

theorem execEnd_t (x : Option NvmCpl × Nat × Qp) : (execEnd x).2.t = x.2.1 := by
  obtain ⟨_ | _, _, _⟩ := x <;> rfl

theorem executeCommand_full (h : a.pair.enqueue = none) :
    executeCommand dev timeout a cmd = (.error .EAGAIN, a) := by
  rw [executeCommand, h]

theorem executeCommand_sent {slot : Nat} {qp : Qp} (h : a.pair.enqueue = some (slot, qp)) :
    executeCommand dev timeout a cmd = execEnd (busyPoll dev (delays timeout) a.t
      (qp.put slot (cmd.withCid (nvmDefaultCid qp.sq.q))).submit) := by
  simp only [executeCommand, h]
  obtain ⟨_ | _, _, _⟩ := busyPoll dev (delays timeout) a.t
    (qp.put slot (cmd.withCid (nvmDefaultCid qp.sq.q))).submit <;> rfl

theorem executeCommand_le : a.t ≤ (executeCommand dev timeout a cmd).2.t := by
  cases he : a.pair.enqueue with
  | none =>
    rw [executeCommand_full he]
  | some x =>
    rw [executeCommand_sent he, execEnd_t]
    exact Nat.le_of_lt (busyPoll_le ..)

theorem executeCommand_congr (h : ∀ s < (executeCommand dev timeout a cmd).2.t, dev' s = dev s) :
    executeCommand dev' timeout a cmd = executeCommand dev timeout a cmd := by
  cases he : a.pair.enqueue with
  | none => rw [executeCommand_full he, executeCommand_full he]
  | some x =>
    rw [executeCommand_sent he, execEnd_t] at h
    rw [executeCommand_sent he, executeCommand_sent he, busyPoll_congr _ _ _ h]

/-- A run depends on what the controller does until its end only. -/
theorem run_congr {tr : List (Admin × RpcStep)} (hr : Run (Admin.step dev timeout) a tr a') :
    a.t ≤ a'.t ∧ ((∀ s < a'.t, dev' s = dev s) → Run (Admin.step dev' timeout) a tr a' ∧
      rpcAnswers dev' timeout tr = rpcAnswers dev timeout tr) := by
  induction hr with
  | refl => exact ⟨Nat.le_refl _, fun _ => ⟨.refl, rfl⟩⟩
  | @cons a a₁ a₂ l tr hs hr ih =>
    obtain ⟨hle, hcongr⟩ := ih
    cases l with
    | call cmd =>
      cases hs
      rw [nvmRawRpc_admin] at hle
      refine ⟨executeCommand_le.trans hle, fun h => ?_⟩
      obtain ⟨hrun, hans⟩ := hcongr h
      have hexec : executeCommand dev' timeout a cmd = executeCommand dev timeout a cmd :=
        executeCommand_congr fun s hs => h s (hs.trans_le hle)
      have hstep : Admin.step dev' timeout a (.call cmd) =
          some (nvmRawRpc dev timeout a cmd).2.2 := by
        rw [Admin.step, nvmRawRpc_admin, nvmRawRpc_admin, hexec]
      refine ⟨.cons hstep hrun, ?_⟩
      exact congrArg₂ (fun x y => (cmd, x) :: y) (congrArg Prod.fst hexec) hans
    | device acts =>
      cases hs
      refine ⟨hle, fun h => ?_⟩
      obtain ⟨hrun, hans⟩ := hcongr h
      exact ⟨.cons rfl hrun, hans⟩

/-- On an idle pair the wait runs out, or the command's own completion is returned. -/
theorem executeCommand_idle (h : a.pair.Idle) (dev : Device) (timeout : Nat) (cmd : NvmCmd) :
    (executeCommand dev timeout a cmd).1 = .error .ETIME ∨
      ∃ cpl, (executeCommand dev timeout a cmd).1 = .ok cpl ∧
        Answered a (executeCommand dev timeout a cmd).2 cmd cpl := by
  obtain ⟨slot, r, he, hi⟩ := h.issue h.has_room
  have hq := hi a.pair.prp (cmd.withCid (nvmDefaultCid r.q))
  rw [executeCommand_sent he]
  rcases h.exec dev hq rfl rfl (delays timeout) a.t with
    ⟨t', q, hp, -⟩ | ⟨cpl, t', q, hp, -, hidle, -, -, hpo⟩
  · left
    erw [hp]
    rfl
  · right
    refine ⟨cpl, ?_⟩
    erw [hp]
    exact ⟨rfl, hidle, _, _, _, hpo⟩

/-- The completion `p` is the one for the command of the answer, and the answer. -/
def OwnPost (p : Post) (e : RpcAnswer) : Prop := (∃ cid, p.cmd = e.1.withCid cid) ∧ e.2 = .ok p.cpl

/-- The calls so far have not timed out, so their answers are what was posted. -/
def InOrder (dev : Device) (timeout : Nat) (tr : List (Admin × RpcStep)) (a : Admin) : Prop :=
  (∀ e ∈ rpcAnswers dev timeout tr, e.2 ≠ .error .ETIME) →
    a.pair.Idle ∧ List.Forall₂ OwnPost a.pair.posted (rpcAnswers dev timeout tr)

theorem InOrder.step {tr : List (Admin × RpcStep)} {l : RpcStep} (h : InOrder dev timeout tr a)
    (hs : Admin.step dev timeout a l = some a') : InOrder dev timeout (tr ++ [(a, l)]) a' := by
  intro hin
  rw [rpcAnswers_append] at hin ⊢
  obtain ⟨hold, hnew⟩ := List.forall_mem_append.mp hin
  obtain ⟨hidle, hown⟩ := h hold
  cases l with
  | call cmd =>
    cases hs
    rw [nvmRawRpc_admin]
    rcases executeCommand_idle hidle dev timeout cmd with hlate | ⟨cpl, hok, hans⟩
    · exact absurd hlate (hnew (cmd, _) (List.mem_singleton_self _))
    · obtain ⟨k, cid, prp, hpo⟩ := hans.posted
      refine ⟨hans.idle, ?_⟩
      rw [hpo]
      exact List.rel_append hown (.cons ⟨⟨cid, rfl⟩, hok⟩ .nil)
  | device acts =>
    cases hs
    refine ⟨hidle.acts acts, ?_⟩
    rw [hidle.foldl_devStep acts]
    simpa [rpcAnswers] using hown

/-- If no call times out, the completions that the controller has posted are the answers, in order. -/
theorem answers_own {tr : List (Admin × RpcStep)} (hr : Run (Admin.step dev timeout) a tr a')
    (hi : a.pair.Idle) (hp : a.pair.posted = [])
    (hin : ∀ e ∈ rpcAnswers dev timeout tr, e.2 ≠ .error .ETIME) :
    a'.pair.Idle ∧ List.Forall₂ OwnPost a'.pair.posted (rpcAnswers dev timeout tr) := by
  have hinit : InOrder dev timeout [] a := fun _ => ⟨hi, by rw [hp]; exact .nil⟩
  exact Run.inv_trace (InOrder dev timeout) (fun _ _ _ _ h hs => h.step hs) hr hinit hin

end Sequential

/-! ## Concurrent calls -/

section Concurrent

variable {timeout : Nat} {pair : Qp} {s s' : RpcShared}

/-- Calls one after another on the pair lead to `a` and have the answers `log`. -/
def Past (timeout : Nat) (pair : Qp) (dev : Device) (a : Admin) (log : List RpcAnswer) : Prop :=
  ∃ tr, Run (Admin.step dev timeout) ⟨0, pair⟩ tr a ∧ rpcAnswers dev timeout tr = log

theorem Past.congr {dev dev' : Device} {a : Admin} {log : List RpcAnswer}
    (h : Past timeout pair dev a log) (hd : ∀ t < a.t, dev' t = dev t) :
    Past timeout pair dev' a log := by
  obtain ⟨tr, hr, hlog⟩ := h
  obtain ⟨hr', hans⟩ := (run_congr hr).2 hd
  exact ⟨tr, hr', hans.trans hlog⟩

theorem Past.call {dev : Device} {a : Admin} {log : List RpcAnswer} (h : Past timeout pair dev a log)
    (cmd : NvmCmd) :
    Past timeout pair dev (executeCommand dev timeout a cmd).2
      (log ++ [(cmd, (executeCommand dev timeout a cmd).1)]) := by
  obtain ⟨tr, hr, rfl⟩ := h
  refine ⟨tr ++ [(a, .call cmd)], hr.trans (.single ?_), rpcAnswers_append tr _⟩
  rw [Admin.step, nvmRawRpc_admin]

theorem Past.device {dev : Device} {a : Admin} {log : List RpcAnswer}
    (h : Past timeout pair dev a log) (act : DevAct) :
    Past timeout pair dev { a with pair := a.pair.devStep act } log := by
  obtain ⟨tr, hr, rfl⟩ := h
  refine ⟨tr ++ [(a, .device [act])], hr.trans (.single rfl), ?_⟩
  rw [rpcAnswers_append]
  exact List.append_nil _

/-- No call is under way. -/
def Free (timeout : Nat) (pair : Qp) (s : RpcShared) : Prop :=
  ∃ dev a, Past timeout pair dev a s.log ∧ a.pair = s.pair

/-- A call waits, with `left` polls that may still fail. The controller has done `acts` since the last
poll, or the doorbell, left the pair at `q`; the next poll is number `t`. -/
def Waiting (timeout : Nat) (pair : Qp) (cmd : NvmCmd) (left : Nat) (s : RpcShared) : Prop :=
  ∃ (dev : Device) (a : Admin) (t : Nat) (q : Qp) (acts : List DevAct),
    Past timeout pair dev a s.log ∧ a.t ≤ t ∧ s.pair = acts.foldl Qp.devStep q ∧
      ∀ dev' : Device, (∀ i < t, dev' i = dev i) →
        executeCommand dev' timeout a cmd = execEnd (busyPoll dev' left t q)

/-- What holds at a point under the lock. -/
def RpcPoint.Cond (timeout : Nat) (pair : Qp) : RpcPoint → RpcShared → Prop
  | .exec _ _ => Free timeout pair
  | .wait _ cmd left => Waiting timeout pair cmd left
  | .leave _ _ => Free timeout pair
  | _ => fun _ => True

theorem Free.device (h : Free timeout pair s) (act : DevAct) :
    Free timeout pair { s with pair := s.pair.devStep act } := by
  obtain ⟨dev, a, hpast, heq⟩ := h
  exact ⟨dev, _, hpast.device act, by rw [heq]⟩

theorem Waiting.device {cmd : NvmCmd} {left : Nat} (h : Waiting timeout pair cmd left s)
    (act : DevAct) : Waiting timeout pair cmd left { s with pair := s.pair.devStep act } := by
  obtain ⟨dev, a, t, q, acts, hpast, hle, heq, hexec⟩ := h
  refine ⟨dev, a, t, q, acts ++ [act], hpast, hle, ?_, hexec⟩
  rw [List.foldl_append, heq]
  rfl

/-- The controller that does `acts` before poll `t`, and else what `dev` does. -/
def Nvm.Device.fixed (dev : Device) (t : Nat) (acts : List DevAct) : Device :=
  fun i q => if i = t then acts else dev i q

theorem Nvm.Device.fixed_tick (dev : Device) (t : Nat) (acts : List DevAct) (q : Qp) :
    (dev.fixed t acts).tick t q = acts.foldl Qp.devStep q := by
  rw [Device.tick, Device.fixed, if_pos rfl]

theorem Nvm.Device.fixed_before (dev : Device) {t i : Nat} (acts : List DevAct) (h : i < t) :
    dev.fixed t acts i = dev i := by
  funext q
  exact if_neg (Nat.ne_of_lt h)

/-- `execute_command` as far as the doorbell. -/
theorem Free.exec (h : Free timeout pair s) {f : RpcFn} {cmd : NvmCmd} {p : RpcPoint}
    (hs : (RpcPoint.exec f cmd).next timeout s = some (s', p)) : p.Cond timeout pair s' := by
  obtain ⟨dev, a, hpast, heq⟩ := h
  simp only [RpcPoint.next] at hs
  split at hs
  · rename_i hfull
    cases hs
    have hexec : executeCommand dev timeout a cmd = (.error .EAGAIN, a) :=
      executeCommand_full (heq ▸ hfull)
    have := hpast.call cmd
    rw [hexec] at this
    exact ⟨dev, a, this, heq⟩
  · rename_i slot qp hsent
    cases hs
    exact ⟨dev, a, a.t, _, [], hpast, Nat.le_refl _, rfl, fun dev' _ =>
      executeCommand_sent (heq ▸ hsent)⟩

/-- One poll. -/
theorem Waiting.poll {f : RpcFn} {cmd : NvmCmd} {left : Nat} (h : Waiting timeout pair cmd left s)
    {p : RpcPoint} (hs : (RpcPoint.wait f cmd left).next timeout s = some (s', p)) :
    p.Cond timeout pair s' := by
  obtain ⟨dev, a, t, q, acts, hpast, hle, heq, hexec⟩ := h
  -- what the controller has done is now fixed as what it does before this poll
  have hbefore : ∀ i < t, dev.fixed t acts i = dev i := fun i hi => dev.fixed_before acts hi
  have htick : (dev.fixed t acts).tick t q = s.pair := (dev.fixed_tick t acts q).trans heq.symm
  have hpast' : Past timeout pair (dev.fixed t acts) a s.log :=
    hpast.congr fun i hi => hbefore i (hi.trans_le hle)
  have hcall := hpast'.call cmd
  rw [hexec _ hbefore, busyPoll.eq_def, htick] at hcall
  simp only [RpcPoint.next] at hs
  rcases hd : s.pair.dequeue with ⟨_ | cpl, qp⟩
  · rw [hd] at hs hcall
    cases left with
    | zero =>
      cases hs
      exact ⟨_, _, hcall, rfl⟩
    | succ left =>
      cases hs
      refine ⟨dev.fixed t acts, a, t + 1, qp, [], hpast', Nat.le_succ_of_le hle, rfl, ?_⟩
      intro dev' hdev
      have htick' : dev'.tick t q = s.pair := by
        rw [← htick, Device.tick, hdev t (Nat.lt_succ_self t), Device.tick]
      have hlow : ∀ i < t, dev' i = dev i := fun i hi =>
        (hdev i (Nat.lt_succ_of_lt hi)).trans (hbefore i hi)
      rw [hexec dev' hlow, busyPoll.eq_def, htick', hd]
  · rw [hd] at hs hcall
    cases hs
    exact ⟨_, _, hcall, rfl⟩

/-- The transitions: the lock is taken before `execute_command` and given back after it. -/
inductive RpcPoint.Takes (timeout : Nat) (s : RpcShared) : RpcPoint → RpcShared → RpcPoint → Prop where
  | lock (f : RpcFn) (cmd : NvmCmd) : Takes timeout s (.lock f cmd) s (.exec f cmd)
  | inside {p q : RpcPoint} {s' : RpcShared} (hp : p.locked = true) (hq : q.locked = true)
      (hn : p.next timeout s = some (s', q)) (ha : s'.log = s.log ++ q.answer.toList)
      (hnone : p.answer = none) : Takes timeout s p s' q
  | leave (f : RpcFn) (r : RpcAnswer) : Takes timeout s (.leave f r) s (.done f r)

theorem RpcPoint.takes_of_next {p q : RpcPoint} (hn : p.next timeout s = some (s', q)) :
    Takes timeout s p s' q := by
  cases p with
  | lock f cmd =>
    cases hn
    exact .lock f cmd
  | exec f cmd =>
    have h := hn
    simp only [next] at h
    split at h
    · cases h
      exact .inside rfl rfl hn rfl rfl
    · cases h
      exact .inside rfl rfl hn (List.append_nil _).symm rfl
  | wait f cmd left =>
    have h := hn
    simp only [next] at h
    split at h
    · cases h
      exact .inside rfl rfl hn rfl rfl
    · split at h
      · cases h
        exact .inside rfl rfl hn rfl rfl
      · cases h
        exact .inside rfl rfl hn (List.append_nil _).symm rfl
  | leave f r =>
    cases hn
    exact .leave f r
  | done f r => cases hn
  | device => cases hn

theorem RpcPoint.cond_next {p q : RpcPoint} (hp : p.locked = true) (hq : q.locked = true)
    (h : p.Cond timeout pair s) (hn : p.next timeout s = some (s', q)) : q.Cond timeout pair s' := by
  cases p with
  | exec f cmd => exact Free.exec h hn
  | wait f cmd left => exact Waiting.poll h hn
  | leave f r =>
    cases hn
    cases hq
  | lock f cmd => cases hp
  | done f r => cases hp
  | device => cases hp

theorem RpcPoint.cond_device {p : RpcPoint} (h : p.Cond timeout pair s) (act : DevAct) :
    p.Cond timeout pair { s with pair := s.pair.devStep act } := by
  cases p with
  | exec f cmd => exact Free.device h act
  | wait f cmd left => exact Waiting.device h act
  | leave f r => exact Free.device h act
  | lock f cmd => trivial
  | done f r => trivial
  | device => trivial

theorem rpc_guarded (timeout : Nat) (pair : Qp) :
    Monitor.Guarded (rpcProgram timeout) (Free timeout pair) (RpcPoint.Cond timeout pair) := by
  refine ⟨?_, ?_, ?_, ?_, ?_⟩
  · intro s k s' p hs
    cases k with
    | call f cmd =>
      cases hs
      exact ⟨rfl, id, fun _ h => h⟩
    | device act =>
      cases hs
      exact ⟨rfl, fun h => h.device act, fun q h => q.cond_device h act⟩
  · intro s p e s' q hs hp hq
    cases RpcPoint.takes_of_next hs with
    | lock f cmd => cases hq
    | inside hp' => exact absurd (hp'.symm.trans hp) (by decide)
    | leave f r => cases hp
  · intro s p e s' q hs hp hq h
    cases RpcPoint.takes_of_next hs with
    | lock f cmd => exact h
    | inside hp' => exact absurd (hp'.symm.trans hp) (by decide)
    | leave f r => cases hp
  · intro s p e s' q hs hp hq h
    exact p.cond_next hp hq h hs
  · intro s p e s' q hs hp hq h
    cases RpcPoint.takes_of_next hs with
    | lock f cmd => cases hp
    | inside _ hq' => exact absurd (hq'.symm.trans hq) (by decide)
    | leave f r => exact h

/-- The answers of the calls that have come to the end of `execute_command` are those of the log. -/
def Answers (m : Monitor RpcShared RpcPoint) : Prop :=
  (m.threads.filterMap RpcPoint.answer).Perm m.shared.log

theorem answers_step {m m' : Monitor RpcShared RpcPoint} {l : Monitor.Move Unit RpcCall}
    (h : Answers m) (hs : m.step (rpcProgram timeout) l = some m') : Answers m' := by
  unfold Answers at h ⊢
  cases l with
  | call k =>
    obtain ⟨s, p, hstart, rfl⟩ := Monitor.step_call hs
    simp only [List.filterMap_append]
    cases k with
    | call f cmd =>
      cases hstart
      exact (List.Perm.of_eq (List.append_nil _)).trans h
    | device act =>
      cases hstart
      exact (List.Perm.of_eq (List.append_nil _)).trans h
  | step j e =>
    obtain ⟨p, s, q, lock, hp, hn, -, rfl⟩ := Monitor.step_next hs
    obtain ⟨rest, hthreads, hset⟩ := Monitor.threads_perm hp q
    have hold := (hthreads.filterMap RpcPoint.answer).symm.trans h
    refine (hset.filterMap RpcPoint.answer).trans ?_
    cases RpcPoint.takes_of_next hn with
    | lock f cmd => exact hold
    | inside _ _ _ ha hnone =>
      rw [List.filterMap_cons, hnone] at hold
      rw [ha, List.filterMap_cons]
      cases q.answer with
      | none => simpa using hold
      | some r => exact (hold.cons r).trans (List.perm_append_singleton r _).symm
    | leave f r => exact hold

/-- While a call is under way, the ones before it are in the past. -/
theorem past_of_guards {m : Monitor RpcShared RpcPoint} {k : Nat}
    (h : Monitor.Guards (rpcProgram timeout) (Free timeout pair) (RpcPoint.Cond timeout pair) m)
    (hl : m.lock = some k) : ∃ dev a, Past timeout pair dev a m.shared.log := by
  obtain ⟨p, hp⟩ : ∃ p, m.threads[k]? = some p :=
    ⟨_, List.getElem?_eq_getElem (h.exclusive.held k hl)⟩
  have hlocked := (h.exclusive.holds k p hp).mpr hl
  have hcond := h.busy k p hp hlocked
  cases p with
  | exec f cmd =>
    obtain ⟨dev, a, hpast, -⟩ := hcond
    exact ⟨dev, a, hpast⟩
  | wait f cmd left =>
    obtain ⟨dev, a, t, q, acts, hpast, -⟩ := hcond
    exact ⟨dev, a, hpast⟩
  | leave f r =>
    obtain ⟨dev, a, hpast, -⟩ := hcond
    exact ⟨dev, a, hpast⟩
  | lock f cmd => cases hlocked
  | done f r => cases hlocked
  | device => cases hlocked

end Concurrent

/-- Any number of threads call `nvm_raw_rpc` and `_nvm_local_admin` on one reference that
`nvm_aq_create` has made, in any interleaving of their steps with one another and with the
controller's. At most one is in `execute_command`. The same commands can be sent one after another, in
the order of `log`, with the same answers and, when no call is under way, to the same state of the
queues. If no call has timed out by then, the controller has posted one completion for each command,
and each caller has got the one for its own. -/
theorem rpc_calls_linear {j : Nat} {ctrl : NvmCtrl} (hpage : ctrl.pageSize = 2 ^ j) {env : AqEnv}
    {window : NvmDma} {pair : Qp} (hpair : createAdmin ctrl env window = some (.ok pair))
    {tr : List (Monitor RpcShared RpcPoint × Monitor.Move Unit RpcCall)}
    {m : Monitor RpcShared RpcPoint}
    (hr : Run (Monitor.step (rpcProgram ctrl.timeout)) (.init ⟨pair, []⟩) tr m) :
    Monitor.Exclusive (rpcProgram ctrl.timeout) m ∧
      (m.threads.filterMap RpcPoint.answer).Perm m.shared.log ∧
      (∃ dev tr' a, Run (Admin.step dev ctrl.timeout) ⟨0, pair⟩ tr' a ∧
        rpcAnswers dev ctrl.timeout tr' = m.shared.log ∧ (m.lock = none → a.pair = m.shared.pair)) ∧
      (m.lock = none → (∀ e ∈ m.shared.log, e.2 ≠ .error .ETIME) →
        List.Forall₂ OwnPost m.shared.pair.posted m.shared.log) := by
  have hidle : pair.Idle := createAdmin_idle hpage hpair
  have hposted : pair.posted = [] := by
    obtain ⟨acq, asq, rfl, -⟩ := createAdmin_ok hpair
    rfl
  have hfree : Free ctrl.timeout pair ⟨pair, []⟩ := ⟨.silent, ⟨0, pair⟩, ⟨[], .refl, rfl⟩, rfl⟩
  obtain ⟨hg, -⟩ := (rpc_guarded ctrl.timeout pair).run hfree hr
  have hans : Answers m :=
    Run.inv_all Answers (fun _ _ _ h hs => answers_step h hs) hr (List.Perm.refl [])
  have hpast : ∃ dev a, Past ctrl.timeout pair dev a m.shared.log ∧
      (m.lock = none → a.pair = m.shared.pair) := by
    cases hl : m.lock with
    | none =>
      obtain ⟨dev, a, hpast, heq⟩ := hg.free hl
      exact ⟨dev, a, hpast, fun _ => heq⟩
    | some k =>
      obtain ⟨dev, a, hpast⟩ := past_of_guards hg hl
      exact ⟨dev, a, hpast, nofun⟩
  obtain ⟨dev, a, ⟨tr', hrun, hlog⟩, heq⟩ := hpast
  refine ⟨hg.exclusive, hans, ⟨dev, tr', a, hrun, hlog, heq⟩, fun hl hin => ?_⟩
  rw [← heq hl, ← hlog]
  exact (answers_own hrun hidle hposted (hlog ▸ hin)).2

/-- Two threads call at once; the controller answers while the first one has the lock, and again. -/
def rpcMoves : List (Monitor.Move Unit RpcCall) :=
  [.call (.call .nvmRawRpc (adminIdentifyCtrl 0x3000#64)),
    .call (.call .nvmLocalAdmin (adminIdentifyNs 1 0x3000#64)), .step 0 (), .step 0 (),
    .call (.device .fetch), .call (.device (.complete 0 .zero)), .step 0 (), .step 0 (), .step 1 (),
    .step 1 (), .call (.device .fetch), .call (.device (.complete 0 .zero)), .step 1 (), .step 1 ()]

/-- Both get the completions of their commands. -/
theorem rpc_calls_linear_two :
    ∃ tr m, Run (Monitor.step (rpcProgram hastyCtrl.timeout)) (.init ⟨hastyPair, []⟩) tr m ∧
      m.shared.log.length = 2 ∧ List.Forall₂ OwnPost m.shared.pair.posted m.shared.log := by
  obtain ⟨tr, m, hr, -, hp⟩ := follow_run (Monitor.step (rpcProgram hastyCtrl.timeout))
    (fun _ _ => true) (.init ⟨hastyPair, []⟩) rpcMoves
    (fun m => m.lock.isNone && (m.shared.log.length == 2 && m.shared.log.all fun e => e.2.isOk))
    (by decide +kernel)
  simp only [Bool.and_eq_true, Option.isNone_iff_eq_none, beq_iff_eq, List.all_eq_true] at hp
  obtain ⟨hl, hlen, hok⟩ := hp
  obtain ⟨-, -, -, hown⟩ := @rpc_calls_linear 12 hastyCtrl rfl promptEnv adminWindow hastyPair
    hastyPair_created tr m hr
  refine ⟨tr, m, hr, hlen, hown hl fun e he hlate => ?_⟩
  have := hok e he
  rw [hlate] at this
  cases this

end UGDS
