import UGDS.Api.AdminQueues

/-!
# UGDS.Api.Rpc

Runs of `nvm_raw_rpc` calls on one local admin reference (`rpc.cpp`). The controller works at the polls
of a call and between calls, as late as it likes. `execute_command` takes the next entry of the
completion queue for the answer to its command and does not compare identifiers.

* `nvmRawRpc_cases`: a command is refused, or it is submitted and then the wait runs out or takes
  the next completion.
* `own_of_idle`, `stale_of_outstanding`: whose completion that is.
* `rpc_own_completion`: a call is sure to return the completion of its command exactly if no earlier
  command is outstanding, which is so as long as no call has timed out.
-/

namespace UGDS

open Nvm Lib Drv

/-- A call, or actions of the controller between calls. -/
inductive RpcStep where
  | call (cmd : NvmCmd)
  | device (acts : List DevAct)

def Admin.step (dev : Device) (timeout : Nat) (a : Admin) : RpcStep → Option Admin
  | .call cmd => some (nvmRawRpc dev timeout a cmd).2.2
  | .device acts => some { a with pair := acts.foldl Qp.devStep a.pair }

/-- A call that returns no errno, hence 0 or a negated status, returns the completion that the
controller has posted for the command that the call submitted. -/
def OwnAnswer (dev : Device) (timeout : Nat) (a : Admin) (cmd : NvmCmd) : Prop :=
  (nvmRawRpc dev timeout a cmd).1 ≤ 0 →
    ∃ p ∈ (nvmRawRpc dev timeout a cmd).2.2.pair.posted,
      p.seq = a.pair.cmds.length ∧ p.cpl = (nvmRawRpc dev timeout a cmd).2.1

section Call

variable {dev : Device} {timeout n : Nat} {a : Admin} {cmd : NvmCmd}

/-- The pair right after the doorbell of a command that got a slot. -/
structure Submitted (a : Admin) (cmd : NvmCmd) (n : Nat) (q : Qp) : Prop where
  inv : q.Inv n
  cmds : ∃ cid, q.cmds = a.pair.cmds ++ [cmd.withCid cid]
  posted : q.posted = a.pair.posted
  fetched : q.fetched = a.pair.fetched
  nFetched : q.nFetched = a.pair.nFetched
  qs : q.sq.q.qs = a.pair.sq.q.qs

/-- What `nvm_raw_rpc` does with what the wait has found. -/
structure Waits (timeout : Nat) (a : Admin) (cmd : NvmCmd) (q : Qp) : Prop where
  timedOut : ∀ {dev t q'}, busyPoll dev (delays timeout) a.t q = (none, t, q') →
    nvmRawRpc dev timeout a cmd = (Errno.ETIME.code, .zero, ⟨t, q'⟩)
  completed : ∀ {dev cpl t q'}, busyPoll dev (delays timeout) a.t q = (some cpl, t, q') →
    nvmRawRpc dev timeout a cmd = (nvmErrPack (.ok cpl), cpl, ⟨t, q'.retire⟩)

theorem nvmRawRpc_cases (timeout : Nat) (h : a.pair.Inv n) (cmd : NvmCmd) :
    (a.pair.enqueue = none ∧
        ∀ dev, nvmRawRpc dev timeout a cmd = (Errno.EAGAIN.code, .zero, a)) ∨
      a.pair.enqueue ≠ none ∧ ∃ q, Submitted a cmd n q ∧ Waits timeout a cmd q := by
  have hroom := h.sq.room
  rcases Nat.lt_or_ge (a.pair.cmds.length + 1) (n + a.pair.sq.q.qs) with hlt | hge
  · obtain ⟨slot, r, he, hi⟩ := h.issue hlt
    have hqs : r.q.qs = a.pair.sq.q.qs := Qp.enqueue_qs he
    refine .inr ⟨by simp [he], _, ⟨hi a.pair.prp (cmd.withCid (nvmDefaultCid r.q)), ⟨_, rfl⟩, rfl, rfl,
      rfl, (SqRing.submit_qs _).trans hqs⟩, ⟨?_, ?_⟩⟩
    · intro dev t q' hp
      simp only [nvmRawRpc, executeCommand, he]
      erw [hp]
      rfl
    · intro dev cpl t q' hp
      simp only [nvmRawRpc, executeCommand, he]
      erw [hp]
  · have he := h.enqueue_none (by omega)
    refine .inl ⟨he, fun dev => ?_⟩
    simp only [nvmRawRpc, executeCommand, he]
    rfl

theorem nvmErrPack_nonpos (cpl : NvmCpl) : nvmErrPack (.ok cpl) ≤ 0 := by
  rw [nvmErrPack]
  omega

/-- All completions are of commands that were submitted. -/
theorem Nvm.Qp.Inv.seq_lt {qp : Qp} (h : qp.Inv n) {p : Post} (hp : p ∈ qp.posted) :
    p.seq < qp.nFetched := by
  have hmem : p.seq ∈ qp.posted.map Post.seq ++ qp.fetched.map Prod.fst :=
    List.mem_append_left _ (List.mem_map_of_mem hp)
  exact List.mem_range.mp (h.seqs.mem_iff.mp hmem)

theorem Nvm.Qp.Inv.fetched_lt {qp : Qp} (h : qp.Inv n) {x : Nat × NvmCmd} (hx : x ∈ qp.fetched) :
    x.1 < qp.nFetched := by
  have hmem : x.1 ∈ qp.posted.map Post.seq ++ qp.fetched.map Prod.fst :=
    List.mem_append_right _ (List.mem_map_of_mem hx)
  exact List.mem_range.mp (h.seqs.mem_iff.mp hmem)

/-- With nothing outstanding, the next completion is that of the new command. -/
theorem own_of_idle (h : a.pair.Idle) (dev : Device) (timeout : Nat) (cmd : NvmCmd) :
    OwnAnswer dev timeout a cmd := by
  intro hr
  rcases nvmRawRpc_cases timeout h cmd with ⟨-, he⟩ | ⟨-, q, hsub, hw⟩
  · rw [he dev] at hr
    exact absurd hr (Int.not_le.mpr (Errno.code_pos .EAGAIN))
  · obtain ⟨cid, hc⟩ := hsub.cmds
    rcases h.exec dev hsub.inv hc hsub.posted (delays timeout) a.t with
      ⟨t', q', hp, -⟩ | ⟨cpl, t', q', hp, -, -, -, -, hpo⟩
    · rw [hw.timedOut hp] at hr
      exact absurd hr (Int.not_le.mpr (Errno.code_pos .ETIME))
    · rw [hw.completed hp]
      exact ⟨⟨a.pair.cmds.length, cmd.withCid cid, cpl, q.prp⟩, by simp [hpo], rfl, rfl⟩

/-- Fetching a command and completing the first one fetched completes one of the first `m` commands,
when some of these are not completed and no later one is fetched. -/
theorem prompt_posts_earlier {q : Qp} {m : Nat} (h : q.Inv n) (hlen : q.posted.length = n)
    (hlt : n < m) (hm : m ≤ q.cmds.length) (hfet : q.nFetched ≤ m) (t : Nat) :
    ∃ p, (Device.prompt.tick t q).posted = q.posted ++ [p] ∧ p.seq < m := by
  have hcount := h.counts
  have hfirst : ∃ k cmd, (q.devStep .fetch).fetched[0]? = some (k, cmd) ∧ k < m ∧
      (q.devStep .fetch).posted = q.posted := by
    by_cases hf : q.nFetched < q.cmds.length
    · obtain ⟨cmd, r, he, -⟩ := h.sq.fetch hf
      simp only [Qp.devStep, he]
      cases hq : q.fetched with
      | nil =>
        rw [hq] at hcount
        simp only [List.length_nil] at hcount
        exact ⟨_, _, rfl, by omega, trivial⟩
      | cons x rest =>
        exact ⟨x.1, x.2, rfl, (h.fetched_lt (hq ▸ List.mem_cons_self)).trans_le hfet, trivial⟩
    · simp only [Qp.devStep, h.sq.fetch_none (by omega)]
      cases hq : q.fetched with
      | nil =>
        rw [hq] at hcount
        simp only [List.length_nil] at hcount
        omega
      | cons x rest =>
        exact ⟨x.1, x.2, rfl, (h.fetched_lt (hq ▸ List.mem_cons_self)).trans_le hfet, trivial⟩
  obtain ⟨k, cmd, hget, hk, hpo⟩ := hfirst
  have h1 : (q.devStep .fetch).Inv n := h.devStep .fetch
  have hfull : (q.devStep .fetch).cq.full = false := by
    have hqs := h1.cq.qs_ge
    exact h1.cq.not_full (by simp only [List.length_map, hpo]; omega)
  refine ⟨⟨k, cmd, (q.devStep .fetch).cq.entry .zero, (q.devStep .fetch).prp⟩, ?_, hk⟩
  rw [← hpo]
  show ((q.devStep .fetch).devStep (.complete 0 .zero)).posted = _
  generalize q.devStep .fetch = q₁ at hget hfull
  simp only [Qp.devStep, hget, hfull]
  rfl

/-- With an earlier command outstanding, a controller can answer with that command's completion: if
it has posted one already it does nothing, and otherwise it completes the first command it has
fetched. -/
theorem stale_of_outstanding (h : a.pair.Inv n) (hlt : n < a.pair.cmds.length)
    (hroom : a.pair.enqueue ≠ none) (timeout : Nat) (cmd : NvmCmd) :
    ∃ dev, ¬OwnAnswer dev timeout a cmd := by
  rcases nvmRawRpc_cases timeout h cmd with ⟨he, -⟩ | ⟨-, q, hsub, hw⟩
  · exact absurd he hroom
  obtain ⟨cid, hc⟩ := hsub.cmds
  have hcount := h.counts
  by_cases hpo : n < a.pair.posted.length
  · refine ⟨.silent, fun hown => ?_⟩
    have hpoll : n < (Device.silent.tick a.t q).posted.length := by
      show n < q.posted.length
      rw [hsub.posted]
      exact hpo
    obtain ⟨p, r, -, hp, -⟩ := hsub.inv.poll_hit (delays timeout) a.t hpoll
    unfold OwnAnswer at hown
    rw [hw.completed hp] at hown
    obtain ⟨p', hp', hseq, -⟩ := hown (nvmErrPack_nonpos _)
    have hmem : p' ∈ a.pair.posted := by
      rw [← hsub.posted]
      exact hp'
    have := h.seq_lt hmem
    omega
  · have hlen : q.posted.length = n := by
      rw [hsub.posted]
      omega
    have hle : a.pair.cmds.length ≤ q.cmds.length := by simp [hc]
    have hfet : q.nFetched ≤ a.pair.cmds.length := by
      rw [hsub.nFetched]
      exact hcount.2.2
    obtain ⟨p₁, hpost, hlt₁⟩ := prompt_posts_earlier hsub.inv hlen hlt hle hfet a.t
    refine ⟨.prompt, fun hown => ?_⟩
    have hpoll : n < (Device.prompt.tick a.t q).posted.length := by
      rw [hpost, List.length_append, hlen]
      exact Nat.lt_succ_self n
    obtain ⟨p, r, -, hp, -⟩ := hsub.inv.poll_hit (delays timeout) a.t hpoll
    unfold OwnAnswer at hown
    rw [hw.completed hp] at hown
    obtain ⟨p', hp', hseq, -⟩ := hown (nvmErrPack_nonpos _)
    have hmem : p' ∈ q.posted ++ [p₁] := by
      rw [← hpost]
      exact hp'
    rcases List.mem_append.mp hmem with hmem | hmem
    · have := hsub.inv.seq_lt hmem
      omega
    · rw [List.mem_singleton.mp hmem] at hseq
      omega

/-- The pair after a call that has submitted its command. -/
structure Issued (a a' : Admin) (cmd : NvmCmd) (n n' : Nat) : Prop where
  inv : a'.pair.Inv n'
  le : n ≤ n'
  cmds : ∃ cid, a'.pair.cmds = a.pair.cmds ++ [cmd.withCid cid]
  qs : a'.pair.sq.q.qs = a.pair.sq.q.qs

theorem nvmRawRpc_inv (h : a.pair.Inv n) (dev : Device) (timeout : Nat) (cmd : NvmCmd) :
    (nvmRawRpc dev timeout a cmd).2.2 = a ∧ a.pair.enqueue = none ∨
      ∃ n', Issued a (nvmRawRpc dev timeout a cmd).2.2 cmd n n' := by
  rcases nvmRawRpc_cases timeout h cmd with ⟨hfull, he⟩ | ⟨-, q, hsub, hw⟩
  · rw [he dev]
    exact .inl ⟨rfl, hfull⟩
  · obtain ⟨cid, hc⟩ := hsub.cmds
    rcases Qp.busyPoll_spec dev hsub.inv (delays timeout) a.t with
      ⟨t', q', hp, hm, hi, -⟩ | ⟨p, t', q', hp, hm, hi, -⟩
    · rw [hw.timedOut hp]
      exact .inr ⟨n, hi, Nat.le_refl n, ⟨cid, hm.cmds.trans hc⟩, hm.qs.trans hsub.qs⟩
    · rw [hw.completed hp]
      exact .inr ⟨n + 1, hi, Nat.le_succ n, ⟨cid, hm.cmds.trans hc⟩, hm.qs.trans hsub.qs⟩

end Call

/-! ## Runs -/

section Run

variable {dev : Device} {timeout : Nat} {a a' : Admin} {l : RpcStep}

theorem Admin.step_inv (h : ∃ n, a.pair.Inv n) (hs : Admin.step dev timeout a l = some a') :
    ∃ n, a'.pair.Inv n := by
  obtain ⟨n, hn⟩ := h
  cases l with
  | call cmd =>
    cases hs
    rcases nvmRawRpc_inv hn dev timeout cmd with ⟨he, -⟩ | ⟨n', hi⟩
    · exact ⟨n, by rw [he]; exact hn⟩
    · exact ⟨n', hi.inv⟩
  | device acts =>
    cases hs
    exact ⟨n, hn.foldl acts⟩

/-- The step is not a call that times out. -/
def RpcStep.InTime (dev : Device) (timeout : Nat) (a : Admin) : RpcStep → Prop
  | .call cmd => (nvmRawRpc dev timeout a cmd).1 ≠ Errno.ETIME.code
  | .device _ => True

theorem Admin.step_idle (h : a.pair.Idle) (hl : l.InTime dev timeout a)
    (hs : Admin.step dev timeout a l = some a') : a'.pair.Idle := by
  cases l with
  | call cmd =>
    cases hs
    exact (nvmRawRpc_called dev timeout h cmd).idle h hl
  | device acts =>
    cases hs
    exact h.acts acts

end Run

/-- Any run of calls on the admin queues that `nvm_aq_create` has made. In the state it leads to, a
call is sure to return the completion of its command, whatever the controller does from here on,
exactly if `asq.head == asq.tail`, or there is no slot and the call returns `EAGAIN`. And as long as no
call has timed out, `asq.head == asq.tail`. -/
theorem rpc_own_completion {j : Nat} {ctrl : NvmCtrl} (hpage : ctrl.pageSize = 2 ^ j) {env : AqEnv}
    {window : NvmDma} {pair : Qp} (hpair : createAdmin ctrl env window = some (.ok pair))
    {dev : Device} {t₀ : Nat} {tr : List (Admin × RpcStep)} {a : Admin}
    (hrun : Run (Admin.step dev ctrl.timeout) ⟨t₀, pair⟩ tr a) (cmd : NvmCmd) :
    ((∀ dev', OwnAnswer dev' ctrl.timeout a cmd) ↔
        a.pair.sq.q.head = a.pair.sq.q.tail ∨ a.pair.enqueue = none) ∧
      ((∀ x ∈ tr, x.2.InTime dev ctrl.timeout x.1) → a.pair.sq.q.head = a.pair.sq.q.tail) := by
  have hidle : pair.Idle := createAdmin_idle hpage hpair
  obtain ⟨n, hn⟩ : ∃ n, a.pair.Inv n :=
    Run.inv_all (fun a => ∃ n, a.pair.Inv n) (fun _ _ _ h hs => Admin.step_inv h hs) hrun ⟨_, hidle⟩
  rw [← hn.idle_iff]
  refine ⟨⟨fun hown => ?_, fun h dev' => ?_⟩, fun htime => ?_⟩
  · by_contra hneither
    obtain ⟨hbusy, hroom⟩ := not_or.mp hneither
    have hcount := hn.counts
    have hne : n ≠ a.pair.cmds.length := by
      rintro rfl
      exact hbusy hn
    obtain ⟨dev', hstale⟩ := stale_of_outstanding hn (by omega) hroom ctrl.timeout cmd
    exact hstale (hown dev')
  · rcases h with h | h
    · exact own_of_idle h dev' ctrl.timeout cmd
    · intro hr
      rcases nvmRawRpc_cases ctrl.timeout hn cmd with ⟨-, he⟩ | ⟨hne, -⟩
      · rw [he dev'] at hr
        exact absurd hr (Int.not_le.mpr (Errno.code_pos .EAGAIN))
      · exact absurd h hne
  · exact (Run.inv (fun a => a.pair.Idle) (fun a l => l.InTime dev ctrl.timeout a)
      (fun _ _ _ h hl hs => Admin.step_idle h hl hs) hrun hidle htime).1

/-! ## Two Identify commands -/

/-- A controller whose `CAP.TO` is 0, so that a wait is one poll. -/
def hastyCtrl : NvmCtrl := ⟨4096, 0, 0, 1024⟩

/-- The admin queue pair that `nvm_aq_create` makes for it. -/
def hastyPair : Qp :=
  .create ⟨0, 64, 64, 0, 0, 0, true, true, some 0x1000, 0x11000, 0x2000#64⟩
    ⟨0, 16, 256, 0, 0, 0, true, true, some 0x1004, 0x10000, 0x1000#64⟩ 0

theorem hastyPair_created : createAdmin hastyCtrl promptEnv adminWindow = some (.ok hastyPair) := rfl

/-- After a first command that is answered. -/
theorem rpc_own_completion_second :
    ∃ tr a, Run (Admin.step .prompt hastyCtrl.timeout) ⟨0, hastyPair⟩ tr a ∧
      tr.map Prod.snd = [.call (adminIdentifyCtrl 0x3000#64)] ∧
      ∀ dev', OwnAnswer dev' hastyCtrl.timeout a (adminIdentifyNs 1 0x3000#64) := by
  have hrun : Run (Admin.step .prompt hastyCtrl.timeout) ⟨0, hastyPair⟩
      [(⟨0, hastyPair⟩, .call (adminIdentifyCtrl 0x3000#64))] _ := .single rfl
  have h := @rpc_own_completion 12 hastyCtrl rfl promptEnv adminWindow hastyPair hastyPair_created
    .prompt 0 _ _ hrun (adminIdentifyNs 1 0x3000#64)
  refine ⟨_, _, hrun, rfl, h.1.mpr (.inl (h.2 ?_))⟩
  intro x hx
  rw [List.mem_singleton.mp hx]
  show (nvmRawRpc .prompt hastyCtrl.timeout ⟨0, hastyPair⟩ (adminIdentifyCtrl 0x3000#64)).1 ≠ _
  decide +kernel

/-- A controller that does nothing at the first poll. -/
def slowDevice : Device := fun t _ => if t = 0 then [] else [.fetch, .complete 0 .zero]

/-- The first command times out, and the second call returns with the completion of the first: no
other has been posted. -/
theorem rpc_stale_completion :
    ¬ ∀ (j : Nat) (ctrl : NvmCtrl) (env : AqEnv) (window : NvmDma) (pair : Qp),
      ctrl.pageSize = 2 ^ j → createAdmin ctrl env window = some (.ok pair) →
      ∀ (dev : Device) (t₀ : Nat) (tr : List (Admin × RpcStep)) (a : Admin),
        Run (Admin.step dev ctrl.timeout) ⟨t₀, pair⟩ tr a →
        ∀ cmd, OwnAnswer dev ctrl.timeout a cmd := by
  intro h
  have hrun : Run (Admin.step slowDevice hastyCtrl.timeout) ⟨0, hastyPair⟩
      [(⟨0, hastyPair⟩, .call (adminIdentifyCtrl 0x3000#64))] _ := .single rfl
  have hown := h 12 hastyCtrl promptEnv adminWindow hastyPair rfl hastyPair_created slowDevice 0 _ _
    hrun (adminIdentifyNs 1 0x3000#64)
  obtain ⟨p, hp, hseq, -⟩ := hown (by decide +kernel)
  have hposted : (nvmRawRpc slowDevice hastyCtrl.timeout
      (nvmRawRpc slowDevice hastyCtrl.timeout ⟨0, hastyPair⟩ (adminIdentifyCtrl 0x3000#64)).2.2
      (adminIdentifyNs 1 0x3000#64)).2.2.pair.posted.map Post.seq = [0] := by
    decide +kernel
  have hmem := List.mem_map_of_mem (f := Post.seq) hp
  rw [hposted, hseq] at hmem
  exact absurd hmem (by decide +kernel)

end UGDS
