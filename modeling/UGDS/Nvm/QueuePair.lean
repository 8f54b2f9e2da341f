import UGDS.Nvm.CqProtocol
import UGDS.Nvm.SqProtocol
import Mathlib.Data.List.Perm.Basic

/-!
# UGDS.Nvm.QueuePair

A submission queue and a completion queue with the controller behind them, as the I/O path
(`IOQueuePair`) and the admin path (`struct local_admin`) use them.

The controller's behaviour is a `Device`: before every poll of the completion queue it chooses any
list of actions, knowing the poll's number and the whole state of the pair. It fetches commands in
order and completes fetched commands in any order, with any contents of the completion entry, as
early or as late as it likes; an action that is not possible does nothing.

`cmds`, `lists` (the list page when each command was submitted), `nFetched` and `posted` record what
happened; no function of the source reads them.

* `Qp.Inv n`: `n` completions have been consumed, and the two rings' invariants hold. Every
  controller action keeps it (`Inv.devStep`).
* `Inv.issue`: taking a slot, filling it and ringing the doorbell.
* `busyPoll_spec`: what waiting for a completion does.
* `Idle.exec`: on a pair with nothing outstanding, the completion found after issuing one command
  is the completion of that command.
-/

namespace UGDS
namespace Nvm

open Lib

/-- A completion posted: the number of the command in submission order, the command as the
controller read it, the entry stored, and the PRP list page at that time. -/
structure Post where
  seq : Nat
  cmd : NvmCmd
  cpl : NvmCpl
  prp : Nat → BitVec 64

structure Qp where
  sq : SqRing
  cq : CqRing
  /-- `prp_dma->ioaddrs[0]` and the contents of that page, as 64-bit entries. The admin pair has
  no such page and leaves both at zero. -/
  prpAddr : BitVec 64
  prp : Nat → BitVec 64
  /-- Commands the controller has fetched and not completed. -/
  fetched : List (Nat × NvmCmd)
  cmds : List NvmCmd
  lists : List (Nat → BitVec 64)
  nFetched : Nat
  posted : List Post

inductive DevAct where
  | fetch
  | complete (i : Nat) (e : NvmCpl)

namespace Qp

def create (sq cq : NvmQueue) (prpAddr : BitVec 64) : Qp :=
  ⟨.create sq, .create cq, prpAddr, fun _ => 0#64, [], [], [], 0, []⟩

/-- One action of the controller. -/
def devStep (qp : Qp) : DevAct → Qp
  | .fetch =>
    match qp.sq.fetch with
    | none => qp
    | some (cmd, r) =>
      { qp with
        sq := r
        fetched := qp.fetched ++ [(qp.nFetched, cmd)]
        nFetched := qp.nFetched + 1 }
  | .complete i e =>
    match qp.fetched[i]? with
    | none => qp
    | some (k, cmd) =>
      if qp.cq.full then qp
      else
        { qp with
          cq := qp.cq.post e
          fetched := qp.fetched.eraseIdx i
          posted := qp.posted ++ [⟨k, cmd, qp.cq.entry e, qp.prp⟩] }

/-- `nvm_sq_enqueue`: the slot to fill. -/
def enqueue (qp : Qp) : Option (Nat × Qp) :=
  qp.sq.enqueue.map fun x => (x.1, { qp with sq := x.2 })

/-- The command is written into its slot. -/
def put (qp : Qp) (slot : Nat) (cmd : NvmCmd) : Qp :=
  { qp with
    sq := qp.sq.write slot cmd
    cmds := qp.cmds ++ [cmd]
    lists := qp.lists ++ [qp.prp] }

def submit (qp : Qp) : Qp := { qp with sq := qp.sq.submit }

/-- `nvm_cq_dequeue`, with the entry that the returned pointer refers to. -/
def dequeue (qp : Qp) : Option NvmCpl × Qp :=
  (qp.cq.dequeue.1.map qp.cq.mem, { qp with cq := qp.cq.dequeue.2 })

/-- `nvm_sq_update` followed by `nvm_cq_update`. -/
def retire (qp : Qp) : Qp := { qp with sq := qp.sq.update, cq := qp.cq.update }

/-- The numbers and addresses of the two queues. -/
def ids (qp : Qp) : (Nat × BitVec 64) × (Nat × BitVec 64) := (qp.sq.q.ident, qp.cq.q.ident)

end Qp

def Device : Type := Nat → Qp → List DevAct

/-- A device that does nothing. -/
def Device.silent : Device := fun _ _ => []

/-- The controller's actions before poll number `t`. -/
def Device.tick (dev : Device) (t : Nat) (qp : Qp) : Qp := (dev t qp).foldl Qp.devStep qp

def Device.ticks (dev : Device) : Nat → Nat → Qp → Qp
  | _, 0, qp => qp
  | t, k + 1, qp => dev.ticks (t + 1) k (dev.tick t qp)

/-- The polling loops: `nvm_cq_dequeue` until it finds an entry, at most `spins + 1` times. The
result holds the number of the next poll. -/
def busyPoll (dev : Device) (spins t : Nat) (qp : Qp) : Option NvmCpl × Nat × Qp :=
  match (dev.tick t qp).dequeue with
  | (some cpl, qp') => (some cpl, t + 1, qp')
  | (none, qp') =>
    match spins with
    | 0 => (none, t + 1, qp')
    | n + 1 => busyPoll dev n (t + 1) qp'

namespace Qp

/-! ## The invariant -/

/-- `n` completions have been consumed, each with one `nvm_sq_update` and one `nvm_cq_update`.
Every fetched command is completed at most once (`seqs`), and the controller works on the commands
as they were submitted (`fcmd`, `pcmd`). -/
structure Inv (qp : Qp) (n : Nat) : Prop where
  sq : SqInv qp.sq qp.cmds qp.cmds.length qp.nFetched n
  cq : CqInv qp.cq (qp.posted.map Post.cpl) n n
  seqs : (qp.posted.map Post.seq ++ qp.fetched.map Prod.fst).Perm (List.range qp.nFetched)
  fcmd : ∀ x ∈ qp.fetched, qp.cmds[x.1]? = some x.2
  pcmd : ∀ p ∈ qp.posted, qp.cmds[p.seq]? = some p.cmd

theorem Inv.create {ctrl : NvmCtrl} {no k no' qs' v v' : Nat} {loc loc' : Bool}
    {a a' prpAddr : BitVec 64} {sq cq : NvmQueue} (hk : 1 ≤ k) (hk' : k ≤ 16)
    (hsq : nvmQueueClear ctrl false no (2 ^ k) loc v a = .ok sq)
    (hcq : nvmQueueClear ctrl true no' qs' loc' v' a' = .ok cq) :
    (create sq cq prpAddr).Inv 0 :=
  ⟨SqInv.create hk hk' hsq, CqInv.create hcq, List.Perm.refl _, by simp [Qp.create],
    by simp [Qp.create]⟩

section Step

variable {qp : Qp} {n : Nat}

theorem Inv.counts (h : qp.Inv n) :
    n ≤ qp.posted.length ∧ qp.posted.length + qp.fetched.length = qp.nFetched ∧
      qp.nFetched ≤ qp.cmds.length := by
  have h1 := h.cq.taken_le
  have h2 := h.seqs.length_eq
  have h3 := h.sq.fet_le
  simp only [List.length_map, List.length_append, List.length_range] at h1 h2
  exact ⟨h1, h2, h3⟩

theorem Inv.devStep (h : qp.Inv n) (a : DevAct) : (qp.devStep a).Inv n := by
  cases a with
  | fetch =>
    by_cases hf : qp.nFetched < qp.cmds.length
    · obtain ⟨cmd, r, he, hc, -, -, hi⟩ := h.sq.fetch hf
      simp only [Qp.devStep, he]
      refine ⟨hi, h.cq, ?_, ?_, h.pcmd⟩
      · simp only [List.map_append, List.map_cons, List.map_nil, ← List.append_assoc,
          List.range_succ]
        exact h.seqs.append_right _
      · intro x hx
        rcases List.mem_append.mp hx with hx | hx
        · exact h.fcmd x hx
        · rw [List.mem_singleton.mp hx]
          exact hc
    · have := h.sq.fet_le
      simp only [Qp.devStep, h.sq.fetch_none (by omega)]
      exact h
  | complete i e =>
    simp only [Qp.devStep]
    split
    · exact h
    · rename_i k cmd hx
      split
      · exact h
      · rename_i hfull
        have hmem : (k, cmd) ∈ qp.fetched := List.mem_of_getElem? hx
        have hperm : qp.fetched.Perm ((k, cmd) :: qp.fetched.eraseIdx i) := by
          obtain ⟨hlt, hget⟩ := List.getElem?_eq_some_iff.mp hx
          rw [← hget]
          exact (List.getElem_cons_eraseIdx_perm hlt).symm
        refine ⟨h.sq, ?_, ?_, ?_, ?_⟩
        · have := h.cq.post (by simpa using hfull) e
          simpa using this
        · refine List.Perm.trans ?_ h.seqs
          simp only [List.map_append, List.map_cons, List.map_nil, List.append_assoc]
          exact List.Perm.append_left _ (hperm.map Prod.fst).symm
        · intro x hx'
          exact h.fcmd x (List.mem_of_mem_eraseIdx hx')
        · intro p hp
          rcases List.mem_append.mp hp with hp | hp
          · exact h.pcmd p hp
          · rw [List.mem_singleton.mp hp]
            exact h.fcmd _ hmem

/-! ## Waiting for a completion -/

theorem Inv.dequeue_none (h : qp.Inv n) (hp : qp.posted.length = n) :
    qp.dequeue = (none, qp) := by
  simp [Qp.dequeue, h.cq.dequeue_none (by simpa using hp.symm)]

/-- Consuming an entry: the `n`-th posted one is returned, and after the two updates `n + 1` are
consumed. -/
theorem Inv.dequeue_some (h : qp.Inv n) (hp : n < qp.posted.length) :
    ∃ p r, qp.posted[n]? = some p ∧ qp.dequeue = (some p.cpl, { qp with cq := r }) ∧
      r.q.ident = qp.cq.q.ident ∧ ({ qp with cq := r } : Qp).retire.Inv (n + 1) := by
  obtain ⟨hd1, hd2, hd3, -, hd5⟩ := h.cq.dequeue_some (by simpa using hp)
  have hp' : qp.posted[n]? = some qp.posted[n] := List.getElem?_eq_getElem hp
  rw [List.getElem?_map, hp'] at hd2
  have hcpl := Option.some.inj hd2
  refine ⟨qp.posted[n], qp.cq.dequeue.2, hp', ?_, CqRing.dequeue_ident _, ?_⟩
  · simp only [Qp.dequeue, hd1, Option.map_some]
    exact Prod.ext (by rw [hcpl]) rfl
  · have hc := h.counts
    exact ⟨h.sq.update (by omega), hd5.update, h.seqs, h.fcmd, h.pcmd⟩

end Step

end Qp

/-- A status that the controller may send. -/
def Device.Sends (dev : Device) (cpl : NvmCpl) : Prop :=
  ∃ t qp i e, DevAct.complete i e ∈ dev t qp ∧ cpl.status = e.status

/-- The controller completes every command, in time and with status 0: whenever a command is
outstanding and the host starts to wait, a completion is there after at most `spins + 1` polls. -/
structure Device.Completes (dev : Device) (spins : Nat) : Prop where
  timely : ∀ t (qp : Qp) n, qp.Inv n → n < qp.cmds.length →
    ∃ k, k ≤ spins ∧ n < (dev.ticks t (k + 1) qp).posted.length
  clean : ∀ t qp i e, DevAct.complete i e ∈ dev t qp → e.status = 0

theorem Device.Completes.status {dev : Device} {spins : Nat} (h : dev.Completes spins)
    {cpl : NvmCpl} (hs : dev.Sends cpl) : cpl.status = 0 := by
  obtain ⟨t, qp, i, e, he, hst⟩ := hs
  exact hst.trans (h.clean t qp i e he)

namespace Qp

/-- `qp'` is `qp` after controller actions and updates of the host's cursors: submitted commands
and the list page are as they were, and completions were only added. -/
structure Moved (dev : Device) (qp qp' : Qp) : Prop where
  cmds : qp'.cmds = qp.cmds
  prp : qp'.prp = qp.prp
  prpAddr : qp'.prpAddr = qp.prpAddr
  lists : qp'.lists = qp.lists
  ids : qp'.ids = qp.ids
  qs : qp'.sq.q.qs = qp.sq.q.qs
  posted : ∃ new, qp'.posted = qp.posted ++ new ∧ ∀ p ∈ new, p.prp = qp.prp ∧ dev.Sends p.cpl

section Moved

variable {dev : Device} {qp qp' qp'' : Qp} {n : Nat}

theorem Moved.refl (qp : Qp) : Moved dev qp qp := ⟨rfl, rfl, rfl, rfl, rfl, rfl, [], by simp, by simp⟩

theorem Moved.trans (h : Moved dev qp qp') (h' : Moved dev qp' qp'') : Moved dev qp qp'' := by
  obtain ⟨new, hn, hp⟩ := h.posted
  obtain ⟨new', hn', hp'⟩ := h'.posted
  refine ⟨h'.cmds.trans h.cmds, h'.prp.trans h.prp, h'.prpAddr.trans h.prpAddr,
    h'.lists.trans h.lists, h'.ids.trans h.ids, h'.qs.trans h.qs, new ++ new', ?_, ?_⟩
  · rw [hn', hn, List.append_assoc]
  · intro p hm
    rcases List.mem_append.mp hm with hm | hm
    · exact hp p hm
    · exact ⟨(hp' p hm).1.trans h.prp, (hp' p hm).2⟩

theorem moved_devStep {t : Nat} {qp₀ : Qp} {a : DevAct} (ha : a ∈ dev t qp₀) (qp : Qp) :
    Moved dev qp (qp.devStep a) := by
  cases a with
  | fetch =>
    simp only [Qp.devStep]
    split
    · exact Moved.refl qp
    · rename_i hf
      have hq := SqRing.fetch_q hf
      exact ⟨rfl, rfl, rfl, rfl, by simp only [ids, hq], by rw [hq], [], by simp, by simp⟩
  | complete i e =>
    simp only [Qp.devStep]
    split
    · exact Moved.refl qp
    · split
      · exact Moved.refl qp
      · refine ⟨rfl, rfl, rfl, rfl, rfl, rfl, _, rfl, ?_⟩
        intro p hp
        rw [List.mem_singleton.mp hp]
        exact ⟨rfl, t, qp₀, i, e, ha, NvmCpl.status_withPhase e _⟩

theorem Inv.foldl (acts : List DevAct) (h : qp.Inv n) : (acts.foldl Qp.devStep qp).Inv n := by
  induction acts generalizing qp with
  | nil => exact h
  | cons a acts ih => exact ih (h.devStep a)

theorem moved_foldl {t : Nat} {qp₀ : Qp} (acts : List DevAct) (ha : ∀ a ∈ acts, a ∈ dev t qp₀)
    (qp : Qp) : Moved dev qp (acts.foldl Qp.devStep qp) := by
  induction acts generalizing qp with
  | nil => exact Moved.refl qp
  | cons a acts ih =>
    exact (moved_devStep (ha a (by simp)) qp).trans (ih (fun b hb => ha b (by simp [hb])) _)

theorem Inv.tick (h : qp.Inv n) (t : Nat) : (dev.tick t qp).Inv n := h.foldl _

theorem moved_tick (t : Nat) (qp : Qp) : Moved dev qp (dev.tick t qp) :=
  moved_foldl _ (fun _ ha => ha) qp

/-- The host's part of taking an entry moves cursors only. -/
theorem moved_retire {r : CqRing} (h : Moved dev qp qp') (hr : r.q.ident = qp'.cq.q.ident) :
    Moved dev qp ({ qp' with cq := r } : Qp).retire := by
  refine ⟨h.cmds, h.prp, h.prpAddr, h.lists, Eq.trans ?_ h.ids, (SqRing.update_qs _).trans h.qs,
    h.posted⟩
  simp only [ids, retire, SqRing.update_ident, CqRing.update_ident, hr]

theorem busyPoll_now {cpl : NvmCpl} {spins t : Nat}
    (h : (dev.tick t qp).dequeue = (some cpl, qp')) :
    busyPoll dev spins t qp = (some cpl, t + 1, qp') := by
  rw [busyPoll.eq_def, h]

theorem Inv.poll_hit (h : qp.Inv n) (spins t : Nat) (hlt : n < (dev.tick t qp).posted.length) :
    ∃ p r, (dev.tick t qp).posted[n]? = some p ∧
      busyPoll dev spins t qp = (some p.cpl, t + 1, { dev.tick t qp with cq := r }) ∧
      r.q.ident = (dev.tick t qp).cq.q.ident ∧
      ({ dev.tick t qp with cq := r } : Qp).retire.Inv (n + 1) := by
  have hi : (dev.tick t qp).Inv n := h.tick t
  obtain ⟨p, r, hp, hd, hid, hr⟩ := hi.dequeue_some hlt
  exact ⟨p, r, hp, busyPoll_now hd, hid, hr⟩

theorem Inv.poll_miss (h : qp.Inv n) (spins t : Nat) (hlen : (dev.tick t qp).posted.length = n) :
    busyPoll dev spins t qp =
      match spins with
      | 0 => (none, t + 1, dev.tick t qp)
      | k + 1 => busyPoll dev k (t + 1) (dev.tick t qp) := by
  have hi : (dev.tick t qp).Inv n := h.tick t
  rw [busyPoll.eq_def, hi.dequeue_none hlen]

/-- Waiting either runs out with every completion posted so far consumed, or consumes the next
one. -/
theorem busyPoll_spec (dev : Device) (h : qp.Inv n) (spins t : Nat) :
    (∃ t' qp', busyPoll dev spins t qp = (none, t', qp') ∧ Moved dev qp qp' ∧ qp'.Inv n ∧
        qp'.posted.length = n) ∨
      ∃ p t' qp', busyPoll dev spins t qp = (some p.cpl, t', qp') ∧ Moved dev qp qp'.retire ∧
        qp'.retire.Inv (n + 1) ∧ qp'.retire.posted[n]? = some p := by
  -- the number of polls left; a poll that finds nothing leaves the pair as the controller left it
  induction spins generalizing t qp with
  | zero =>
    by_cases hlt : n < (dev.tick t qp).posted.length
    · obtain ⟨p, r, hp, he, hid, hr⟩ := h.poll_hit 0 t hlt
      have hm : Moved dev qp (dev.tick t qp) := moved_tick t qp
      exact .inr ⟨p, _, _, he, moved_retire hm hid, hr, hp⟩
    · have hi : (dev.tick t qp).Inv n := h.tick t
      have hlen : (dev.tick t qp).posted.length = n := by have := hi.counts; omega
      exact .inl ⟨_, _, h.poll_miss 0 t hlen, moved_tick t qp, hi, hlen⟩
  | succ k ih =>
    by_cases hlt : n < (dev.tick t qp).posted.length
    · obtain ⟨p, r, hp, he, hid, hr⟩ := h.poll_hit (k + 1) t hlt
      have hm : Moved dev qp (dev.tick t qp) := moved_tick t qp
      exact .inr ⟨p, _, _, he, moved_retire hm hid, hr, hp⟩
    · have hi : (dev.tick t qp).Inv n := h.tick t
      have hlen : (dev.tick t qp).posted.length = n := by have := hi.counts; omega
      rw [h.poll_miss (k + 1) t hlen]
      rcases ih hi (t + 1) with ⟨t', qp', he, hm, hi', hl⟩ | ⟨p, t', qp', he, hm, hr, hp⟩
      · exact .inl ⟨t', qp', he, (moved_tick t qp).trans hm, hi', hl⟩
      · exact .inr ⟨p, t', qp', he, (moved_tick t qp).trans hm, hr, hp⟩

/-- If the controller posts a completion within the polls allowed, waiting finds one. -/
theorem busyPoll_finds (h : qp.Inv n) (spins t : Nat) {k : Nat} (hk : k ≤ spins)
    (hlt : n < (dev.ticks t (k + 1) qp).posted.length) :
    (busyPoll dev spins t qp).1 ≠ none := by
  induction spins generalizing t qp k with
  | zero =>
    obtain rfl : k = 0 := by omega
    obtain ⟨p, r, -, he, -⟩ := h.poll_hit 0 t hlt
    simp [he]
  | succ m ih =>
    by_cases hnow : n < (dev.tick t qp).posted.length
    · obtain ⟨p, r, -, he, -⟩ := h.poll_hit (m + 1) t hnow
      simp [he]
    · have hi : (dev.tick t qp).Inv n := h.tick t
      have hlen : (dev.tick t qp).posted.length = n := by have := hi.counts; omega
      rw [h.poll_miss (m + 1) t hlen]
      cases k with
      | zero => exact absurd hlt hnow
      | succ k => exact ih hi (t + 1) (by omega) hlt

/-- A controller that does nothing: the wait runs out and nothing has changed. -/
theorem busyPoll_silent (h : qp.Inv n) (hp : qp.posted.length = n) (spins t : Nat)
    (hs : ∀ t' qp', t ≤ t' → t' ≤ t + spins → dev t' qp' = []) :
    busyPoll dev spins t qp = (none, t + spins + 1, qp) := by
  have htick : dev.tick t qp = qp := by simp [Device.tick, hs t qp (le_refl t) (by omega)]
  induction spins generalizing t with
  | zero =>
    rw [h.poll_miss 0 t (by rw [htick]; exact hp), htick]
  | succ m ih =>
    rw [h.poll_miss (m + 1) t (by rw [htick]; exact hp), htick]
    have hs' : ∀ t' qp', t + 1 ≤ t' → t' ≤ t + 1 + m → dev t' qp' = [] :=
      fun t' qp' h1 h2 => hs t' qp' (by omega) (by omega)
    have htick' : dev.tick (t + 1) qp = qp := by
      simp [Device.tick, hs' (t + 1) qp (le_refl _) (by omega)]
    simp only [ih (t + 1) hs' htick']
    congr 2
    omega

end Moved

/-! ## Issuing a command -/

section Issue

variable {qp : Qp} {n : Nat}

theorem enqueue_ident {slot : Nat} {r : SqRing}
    (h : qp.enqueue = some (slot, { qp with sq := r })) : r.q.ident = qp.sq.q.ident := by
  obtain ⟨x, hx, he⟩ := Option.map_eq_some_iff.mp h
  have hr : x.2 = r := congrArg (fun y : Nat × Qp => y.2.sq) he
  rw [← hr]
  exact SqRing.enqueue_ident hx

theorem enqueue_qs {slot : Nat} {r : SqRing} (h : qp.enqueue = some (slot, { qp with sq := r })) :
    r.q.qs = qp.sq.q.qs := by
  obtain ⟨x, hx, he⟩ := Option.map_eq_some_iff.mp h
  have hr : x.2 = r := congrArg (fun y : Nat × Qp => y.2.sq) he
  rw [← hr]
  exact SqRing.enqueue_qs hx

theorem Inv.enqueue_none (h : qp.Inv n) (hf : qp.cmds.length + 1 = n + qp.sq.q.qs) :
    qp.enqueue = none := by
  simp [Qp.enqueue, h.sq.enqueue_none hf]

/-- The slot handed out is filled and submitted; the list page may be rewritten in between. -/
theorem Inv.issue (h : qp.Inv n) (hf : qp.cmds.length + 1 < n + qp.sq.q.qs) :
    ∃ slot r, qp.enqueue = some (slot, { qp with sq := r }) ∧
      ∀ prp cmd, (({ qp with sq := r, prp := prp } : Qp).put slot cmd).submit.Inv n := by
  obtain ⟨r, he, -, hi⟩ := h.sq.enqueue hf
  refine ⟨qp.cmds.length % qp.sq.q.qs, r, by simp only [Qp.enqueue, he, Option.map_some], ?_⟩
  intro prp cmd
  refine ⟨(hi cmd).submit, h.cq, h.seqs, ?_, ?_⟩
  · intro x hx
    obtain ⟨hlt, -⟩ := List.getElem?_eq_some_iff.mp (h.fcmd x hx)
    simp only [Qp.submit, Qp.put, List.getElem?_append_left hlt]
    exact h.fcmd x hx
  · intro p hp
    obtain ⟨hlt, -⟩ := List.getElem?_eq_some_iff.mp (h.pcmd p hp)
    simp only [Qp.submit, Qp.put, List.getElem?_append_left hlt]
    exact h.pcmd p hp

/-- Nothing outstanding: every command submitted has been completed and consumed. -/
def Idle (qp : Qp) : Prop := qp.Inv qp.cmds.length

theorem Idle.facts (h : qp.Idle) :
    qp.nFetched = qp.cmds.length ∧ qp.posted.length = qp.cmds.length ∧ qp.fetched = [] := by
  have hc := h.counts
  have h1 : qp.fetched.length = 0 := by omega
  exact ⟨by omega, by omega, List.eq_nil_of_length_eq_zero h1⟩

/-- Over a pair in any reachable state, being idle is what the host can see: `head == tail`. -/
theorem Inv.idle_iff (h : qp.Inv n) : qp.Idle ↔ qp.sq.q.head = qp.sq.q.tail := by
  have hroom := h.sq.room
  have hle := h.counts
  constructor
  · intro hi
    rw [hi.sq.head_eq, hi.sq.tail_eq]
  · intro he
    rw [h.sq.head_eq, h.sq.tail_eq] at he
    have := mod_inj_window he (by omega) (by omega)
    subst this
    exact h

theorem Idle.has_room (h : qp.Idle) : qp.cmds.length + 1 < qp.cmds.length + qp.sq.q.qs := by
  have := h.sq.qs_bounds
  omega

/-- With nothing outstanding there is nothing the controller could do. -/
theorem Idle.foldl_devStep (h : qp.Idle) (acts : List DevAct) :
    acts.foldl Qp.devStep qp = qp := by
  obtain ⟨hn, -, hf⟩ := h.facts
  have hone (a : DevAct) : qp.devStep a = qp := by
    cases a with
    | fetch => simp only [Qp.devStep, h.sq.fetch_none hn]
    | complete i e => simp [Qp.devStep, hf]
  induction acts with
  | nil => rfl
  | cons a acts ih => rw [List.foldl_cons, hone, ih]

theorem Idle.acts (h : qp.Idle) (acts : List DevAct) : (acts.foldl Qp.devStep qp).Idle := by
  rw [h.foldl_devStep]
  exact h

/-- One command issued on an idle pair (`qp'` is the pair right after the doorbell). If the wait
finds a completion, it is the completion of that command, and the pair is idle again. -/
theorem Idle.exec {qp' : Qp} {cmd : NvmCmd} (h : qp.Idle) (dev : Device)
    (hi : qp'.Inv qp.cmds.length) (hc : qp'.cmds = qp.cmds ++ [cmd])
    (hpo : qp'.posted = qp.posted) (spins t : Nat) :
    (∃ t' q, busyPoll dev spins t qp' = (none, t', q) ∧ Moved dev qp' q ∧ q.Inv qp.cmds.length ∧
        q.posted = qp.posted) ∨
      ∃ cpl t' q, busyPoll dev spins t qp' = (some cpl, t', q) ∧ dev.Sends cpl ∧
        q.retire.Idle ∧ q.retire.cmds = qp'.cmds ∧ q.retire.prpAddr = qp'.prpAddr ∧
        q.retire.posted = qp.posted ++ [⟨qp.cmds.length, cmd, cpl, qp'.prp⟩] := by
  obtain ⟨-, hlen, -⟩ := h.facts
  rcases busyPoll_spec dev hi spins t with ⟨t', q, he, hm, hq, hl⟩ | ⟨p, t', q, he, hm, hq, hp⟩
  · obtain ⟨new, hnew, -⟩ := hm.posted
    rw [hpo] at hnew
    have hnil : new = [] := by
      have := congrArg List.length hnew
      rw [List.length_append] at this
      exact List.eq_nil_of_length_eq_zero (by omega)
    exact .inl ⟨t', q, he, hm, hq, by rw [hnew, hnil, List.append_nil]⟩
  · right
    obtain ⟨new, hnew, hfresh⟩ := hm.posted
    have hcl : q.retire.cmds.length = qp.cmds.length + 1 := by simp [hm.cmds, hc]
    have hcount := hq.counts
    -- exactly one completion was posted: the commands before this one were all completed
    have hone : new.length = 1 := by
      have hl := congrArg List.length hnew
      rw [List.length_append, hpo] at hl
      omega
    obtain ⟨p', rfl⟩ := List.length_eq_one_iff.mp hone
    have hpp : p' = p := by
      rw [hnew, hpo, ← hlen, List.getElem?_concat_length] at hp
      exact Option.some.inj hp
    subst hpp
    have hidle : q.retire.Idle := by
      rw [Idle, hcl]
      exact hq
    have hseq : p'.seq = qp.cmds.length := by
      have h1 := hidle.seqs
      have h0 := h.seqs
      rw [hidle.facts.2.2, hidle.facts.1, hcl, hnew, hpo] at h1
      rw [h.facts.2.2, h.facts.1] at h0
      simp only [List.map_nil, List.append_nil, List.map_append, List.map_cons,
        List.range_succ] at h0 h1
      have h2 := (List.perm_append_left_iff _).mp ((h0.append_right _).symm.trans h1)
      simpa using h2
    have hcmd : p'.cmd = cmd := by
      have h1 := hq.pcmd p' (by rw [hnew]; simp)
      rw [hm.cmds, hc, hseq, List.getElem?_concat_length] at h1
      exact (Option.some.inj h1).symm
    obtain ⟨hprp, hsend⟩ := hfresh p' (by simp)
    refine ⟨p'.cpl, t', q, he, hsend, hidle, hm.cmds, hm.prpAddr, ?_⟩
    rw [hnew, hpo, ← hseq, ← hcmd, ← hprp]

end Issue

end Qp

/-- With a completion still to come, fetching a command and completing the first one fetched makes
one available. -/
theorem Qp.Inv.fetch_complete {qp : Qp} {n : Nat} (h : qp.Inv n) (hlt : n < qp.cmds.length)
    (e : NvmCpl) : n < ((qp.devStep .fetch).devStep (.complete 0 e)).posted.length := by
  have h1 : (qp.devStep .fetch).Inv n := h.devStep .fetch
  have hc := h.counts
  have hpo : (qp.devStep .fetch).posted = qp.posted ∧ 0 < (qp.devStep .fetch).nFetched - n := by
    by_cases hf : qp.nFetched < qp.cmds.length
    · obtain ⟨cmd, r, he, -⟩ := h.sq.fetch hf
      simp only [Qp.devStep, he]
      exact ⟨trivial, by omega⟩
    · simp only [Qp.devStep, h.sq.fetch_none (by omega)]
      exact ⟨trivial, by omega⟩
  generalize qp.devStep .fetch = q at h1 hpo ⊢
  have hc1 := h1.counts
  simp only [Qp.devStep]
  split
  · rename_i hnone
    have := List.getElem?_eq_none_iff.mp hnone
    omega
  · split
    · rename_i hfull
      -- a full queue holds an entry that is not consumed yet
      by_contra hn
      have hlen : q.posted.length = n := by omega
      have hq := h1.cq.qs_ge
      have := h1.cq.not_full (by simp only [List.length_map]; omega)
      rw [this] at hfull
      cases hfull
    · simp only [List.length_append, List.length_singleton]
      omega

/-- A controller that fetches and completes one command before each poll. -/
def Device.prompt : Device := fun _ _ => [.fetch, .complete 0 .zero]

theorem Device.prompt_completes (spins : Nat) : Device.prompt.Completes spins := by
  refine ⟨?_, ?_⟩
  · intro t qp n h hlt
    exact ⟨0, Nat.zero_le _, h.fetch_complete hlt .zero⟩
  · intro t qp i e he
    simp only [Device.prompt, List.mem_cons, List.not_mem_nil, or_false, reduceCtorEq,
      DevAct.complete.injEq, false_or] at he
    rw [he.2]
    decide

end Nvm
end UGDS
