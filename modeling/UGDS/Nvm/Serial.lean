import UGDS.Nvm.QueuePair

/-!
# UGDS.Nvm.Serial

A queue pair whose commands are submitted one at a time, each after the completion of the one
before it was consumed.

* `Qp.Serial n`: `n` completions have been consumed and at most one command is outstanding. The
  controller keeps it (`Serial.devStep`), and so do submitting a command on an idle pair
  (`Serial.issue`) and consuming its completion (`Serial.consume`).
* `Idle.quiet`: what the cursors and the completion queue look like when nothing is outstanding.
* `Device.Answers`: a controller that completes every command in time, the `k`-th one with status
  `st k`. `Device.script` is one.
-/

namespace UGDS
namespace Nvm

open Lib

namespace Qp

/-- Completions arrive in submission order, and the one that is not consumed yet was posted with
the list page as it is now. -/
structure Serial (qp : Qp) (n : Nat) : Prop where
  inv : qp.Inv n
  one : qp.cmds.length ≤ n + 1
  order : ∀ (k : Nat) (p : Post), qp.posted[k]? = some p → p.seq = k
  page : ∀ p : Post, qp.posted[n]? = some p → p.prp = qp.prp

/-- What the host sees of a pair that nobody uses: both cursors of the submission queue and the
last doorbell value agree, so do those of the completion queue, and no entry is unread. -/
structure Quiet (qp : Qp) : Prop where
  sq_head : qp.sq.q.head = qp.sq.q.tail
  sq_last : qp.sq.q.tail = qp.sq.q.last
  cq_last : qp.cq.q.head = qp.cq.q.last
  unread : qp.dequeue.1 = none

theorem Idle.quiet {qp : Qp} (h : qp.Idle) : qp.Quiet := by
  refine ⟨?_, ?_, ?_, ?_⟩
  · rw [h.sq.head_eq, h.sq.tail_eq]
  · rw [h.sq.tail_eq, h.sq.last_eq]
  · rw [h.cq.head_eq, h.cq.last_eq]
  · rw [h.dequeue_none h.facts.2.1]

section Serial

variable {qp : Qp} {n : Nat}

theorem Serial.seqs (h : qp.Serial n) :
    qp.posted.map Post.seq = List.range qp.posted.length := by
  apply List.ext_getElem
  · simp
  · intro k h1 h2
    rw [List.length_map] at h1
    rw [List.getElem_map, List.getElem_range]
    exact h.order k _ (List.getElem?_eq_getElem h1)

/-- A command that the controller holds is the only one outstanding. -/
theorem Serial.fetched_seq (h : qp.Serial n) {i k : Nat} {cmd : NvmCmd}
    (hx : qp.fetched[i]? = some (k, cmd)) : qp.posted.length = n ∧ k = n := by
  have hc := h.inv.counts
  have hone := h.one
  have hmem : (k, cmd) ∈ qp.fetched := List.mem_of_getElem? hx
  have hpos := List.length_pos_of_mem hmem
  have hk : k ∈ qp.fetched.map Prod.fst := List.mem_map_of_mem hmem
  have hnd := h.inv.seqs.nodup_iff.mpr List.nodup_range
  rw [h.seqs] at hnd
  have hnew : k ∉ List.range qp.posted.length :=
    fun hin => (List.nodup_append.mp hnd).2.2 k hin k hk rfl
  have hlt : k ∈ List.range qp.nFetched :=
    h.inv.seqs.subset (List.mem_append_right _ hk)
  rw [List.mem_range] at hnew hlt
  omega

theorem Serial.devStep (h : qp.Serial n) (a : DevAct) : (qp.devStep a).Serial n := by
  have hinv := h.inv.devStep a
  cases a with
  | fetch =>
    revert hinv
    simp only [Qp.devStep]
    split
    · intro _
      exact h
    · intro hinv
      exact ⟨hinv, h.one, h.order, h.page⟩
  | complete i e =>
    revert hinv
    simp only [Qp.devStep]
    split
    · intro _
      exact h
    · rename_i k cmd hx
      obtain ⟨hlen, hk⟩ := h.fetched_seq hx
      split
      · intro _
        exact h
      · intro hinv
        refine ⟨hinv, h.one, ?_, ?_⟩
        · exact forall_snoc h.order (hk.trans hlen.symm)
        · intro p hp
          rw [← hlen, List.getElem?_concat_length] at hp
          cases hp
          rfl

theorem Serial.idle (h : qp.Serial n) (hn : qp.cmds.length = n) : qp.Idle := by
  rw [Idle, hn]
  exact h.inv

theorem Serial.issue (h : qp.Serial n) (hn : qp.cmds.length = n) :
    ∃ slot r, qp.enqueue = some (slot, { qp with sq := r }) ∧
      ∀ prp cmd, (({ qp with sq := r, prp := prp } : Qp).put slot cmd).submit.Serial n := by
  have hidle := h.idle hn
  obtain ⟨slot, r, he, hi⟩ := h.inv.issue (by rw [hn]; have := hidle.has_room; omega)
  refine ⟨slot, r, he, fun prp cmd => ⟨hi prp cmd, ?_, h.order, ?_⟩⟩
  · simp [Qp.submit, Qp.put, hn]
  · intro p hp
    have h1 := (List.getElem?_eq_some_iff.mp hp).1
    have h2 : qp.posted.length = n := by rw [← hn]; exact hidle.facts.2.1
    exact absurd (h2 ▸ h1 : n < n) (Nat.lt_irrefl n)

/-- Consuming the completion that is there: it belongs to the command outstanding, and the pair is
idle afterwards. -/
theorem Serial.consume (h : qp.Serial n) (hp : n < qp.posted.length) :
    ∃ p r, qp.dequeue = (some p.cpl, { qp with cq := r }) ∧ qp.posted[n]? = some p ∧ p.seq = n ∧
      qp.cmds[n]? = some p.cmd ∧ p.prp = qp.prp ∧ qp.cmds.length = n + 1 ∧
      ({ qp with cq := r } : Qp).retire.Serial (n + 1) := by
  obtain ⟨p, r, hget, hd, -, hi⟩ := h.inv.dequeue_some hp
  have hseq := h.order n p hget
  have hcmd := h.inv.pcmd p (List.mem_of_getElem? hget)
  rw [hseq] at hcmd
  have hlen : qp.cmds.length = n + 1 := by
    have := h.inv.counts
    have := h.one
    omega
  refine ⟨p, r, hd, hget, hseq, hcmd, h.page p hget, hlen, hi, ?_, h.order, ?_⟩
  · simp only [Qp.retire]
    omega
  · intro p' hp'
    have h1 := (List.getElem?_eq_some_iff.mp hp').1
    have h2 := hi.counts
    simp only [Qp.retire] at h1 h2
    omega

theorem Serial.miss (h : qp.Serial n) (hp : qp.posted.length = n) : qp.dequeue = (none, qp) :=
  h.inv.dequeue_none hp

end Serial

/-- The completions posted so far carry the statuses `st`. -/
def Answered (st : Nat → BitVec 32) (qp : Qp) : Prop := ∀ p ∈ qp.posted, p.cpl.status = st p.seq

end Qp

/-! ## A controller with given statuses -/

/-- The controller completes every command in time, command number `k` with status `st k`. -/
structure Device.Answers (dev : Device) (spins : Nat) (st : Nat → BitVec 32) : Prop where
  timely : ∀ t (qp : Qp) n, qp.Inv n → n < qp.cmds.length →
    ∃ k, k ≤ spins ∧ n < (dev.ticks t (k + 1) qp).posted.length
  answer : ∀ t (qp : Qp) n, qp.Inv n → qp.Answered st → (dev.tick t qp).Answered st

namespace Device
namespace Answers

variable {dev : Device} {spins : Nat} {st : Nat → BitVec 32} {qp qp' : Qp} {n : Nat}

theorem busyPoll (h : dev.Answers spins st) (m t : Nat) (hi : qp.Inv n) (ha : qp.Answered st) :
    (busyPoll dev m t qp).2.2.Answered st := by
  induction m generalizing t qp with
  | zero =>
    have hi' : (dev.tick t qp).Inv n := hi.tick t
    have ha' := h.answer t qp n hi ha
    by_cases hlt : n < (dev.tick t qp).posted.length
    · obtain ⟨p, r, -, he, -⟩ := hi.poll_hit 0 t hlt
      rw [he]
      exact ha'
    · rw [hi.poll_miss 0 t (by have := hi'.counts; omega)]
      exact ha'
  | succ m ih =>
    have hi' : (dev.tick t qp).Inv n := hi.tick t
    have ha' := h.answer t qp n hi ha
    by_cases hlt : n < (dev.tick t qp).posted.length
    · obtain ⟨p, r, -, he, -⟩ := hi.poll_hit (m + 1) t hlt
      rw [he]
      exact ha'
    · rw [hi.poll_miss (m + 1) t (by have := hi'.counts; omega)]
      exact ih (t + 1) hi' ha'

/-- One command issued on an idle pair: its completion is found, with the status it has to have. -/
theorem exec {cmd : NvmCmd} (h : dev.Answers spins st) (hq : qp.Idle) (ha : qp.Answered st)
    (hi : qp'.Inv qp.cmds.length) (hc : qp'.cmds = qp.cmds ++ [cmd])
    (hpo : qp'.posted = qp.posted) (t : Nat) :
    ∃ cpl t' q, Nvm.busyPoll dev spins t qp' = (some cpl, t', q) ∧
      cpl.status = st qp.cmds.length ∧ q.retire.Idle ∧ q.retire.Answered st ∧
      q.retire.cmds = qp'.cmds ∧ q.retire.prpAddr = qp'.prpAddr ∧
      q.retire.posted = qp.posted ++ [⟨qp.cmds.length, cmd, cpl, qp'.prp⟩] := by
  have ha' : qp'.Answered st := by
    intro p hp
    rw [hpo] at hp
    exact ha p hp
  rcases hq.exec dev hi hc hpo spins t with ⟨t', q, he, -⟩ | ⟨cpl, t', q, he, -, hidle, h1, h2, h3⟩
  · obtain ⟨k, hk, hlt⟩ := h.timely t qp' _ hi (by simp [hc])
    have := Qp.busyPoll_finds hi spins t hk hlt
    rw [he] at this
    exact absurd rfl this
  · have hans : q.retire.Answered st := by
      have := h.busyPoll spins t hi ha'
      rw [he] at this
      exact this
    refine ⟨cpl, t', q, he, ?_, hidle, hans, h1, h2, h3⟩
    exact hans ⟨qp.cmds.length, cmd, cpl, qp'.prp⟩ (by rw [h3]; simp)

end Answers

/-- A controller that completes one command before each poll, number `k` with the entry `cpl k`. -/
def script (cpl : Nat → NvmCpl) : Device := fun _ qp =>
  match (qp.devStep .fetch).fetched with
  | [] => [.fetch]
  | (k, _) :: _ => [.fetch, .complete 0 (cpl k)]

theorem script_tick (cpl : Nat → NvmCpl) (t : Nat) (qp : Qp) :
    ∃ e, (script cpl).tick t qp = (qp.devStep .fetch).devStep (.complete 0 e) ∧
      ∀ x, (qp.devStep .fetch).fetched[0]? = some x → e = cpl x.1 := by
  unfold tick script
  split
  · rename_i hnil
    refine ⟨.zero, ?_, by simp [hnil]⟩
    rw [List.foldl_cons, List.foldl_nil]
    generalize qp.devStep .fetch = q at hnil
    simp [Qp.devStep, hnil]
  · rename_i k cmd rest hcons
    exact ⟨cpl k, rfl, by simp [hcons]⟩

theorem script_answers (cpl : Nat → NvmCpl) (spins : Nat) :
    (script cpl).Answers spins (fun k => (cpl k).status) := by
  refine ⟨?_, ?_⟩
  · intro t qp n h hlt
    refine ⟨0, Nat.zero_le _, ?_⟩
    obtain ⟨e, he, -⟩ := script_tick cpl t qp
    show n < ((script cpl).tick t qp).posted.length
    rw [he]
    exact h.fetch_complete hlt e
  · intro t qp n h ha
    obtain ⟨e, he, hcpl⟩ := script_tick cpl t qp
    have hpo : (qp.devStep .fetch).posted = qp.posted := by
      simp only [Qp.devStep]
      split <;> rfl
    rw [he]
    generalize qp.devStep .fetch = q at hcpl hpo
    simp only [Qp.devStep]
    split
    · intro p hp
      exact ha p (hpo ▸ hp)
    · rename_i k cmd hx
      split
      · intro p hp
        exact ha p (hpo ▸ hp)
      · intro p hp
        rcases List.mem_append.mp hp with hp | hp
        · exact ha p (hpo ▸ hp)
        · rw [List.mem_singleton.mp hp, hcpl _ hx]
          exact NvmCpl.status_withPhase _ _

end Device

end Nvm
end UGDS
