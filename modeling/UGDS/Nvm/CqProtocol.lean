import UGDS.Lib.Steps
import UGDS.Nvm.Queue

/-!
# UGDS.Nvm.CqProtocol

The phase protocol of a completion queue: what the host dequeues is what the controller posted, in
order, whatever the interleaving of posts, dequeues and head doorbells and however often the two
cursors wrap.

`CqInv` relates a ring to three counts: the entries posted, the entries dequeued (`t`) and the
entries acknowledged by the last head doorbell (`c`). Cursors are these counts modulo the queue
size, phases are the parities of their laps, and a slot holds the last entry posted there. The tag
of the head slot is the expected one exactly when `t` is less than the number of entries posted
(`CqInv.poll`): one lap back the tag is the other one.

* `CqInv.post`, `CqInv.dequeue_some`, `CqInv.dequeue_none`, `CqInv.update`: the step lemmas.
* `cq_exact`: the protocol over whole runs, from a created queue.
-/

namespace UGDS
namespace Nvm

open Lib

/-- The invariant of a completion ring: `posted` are the entries the controller has written,
oldest first, `t` of them are dequeued and `c` acknowledged. -/
structure CqInv (r : CqRing) (posted : List NvmCpl) (t c : Nat) : Prop where
  qs_ge : 2 ≤ r.q.qs
  qs_le : r.q.qs ≤ 65536
  db_some : r.q.db ≠ none
  tail_eq : r.devTail = posted.length % r.q.qs
  phase_eq : r.devPhase = lapBit r.q.qs posted.length
  head_eq : r.q.head = t % r.q.qs
  hphase_eq : r.q.phase = lapBit r.q.qs t
  last_eq : r.q.last = c % r.q.qs
  db_eq : r.db = c % r.q.qs
  ack_le : c ≤ t
  taken_le : t ≤ posted.length
  room : posted.length < c + r.q.qs
  slot : ∀ k, k < posted.length → posted.length ≤ k + r.q.qs →
    posted[k]? = some (r.mem (k % r.q.qs))
  tagged : ∀ k e, posted[k]? = some e → e.phaseTag = lapBit r.q.qs k
  blank : ∀ k, posted.length ≤ k → k < r.q.qs → (r.mem k).phaseTag = false

theorem CqInv.create {ctrl : NvmCtrl} {no qs vaddr : Nat} {loc : Bool} {ioaddr : BitVec 64}
    {q : NvmQueue} (h : nvmQueueClear ctrl true no qs loc vaddr ioaddr = .ok q) :
    CqInv (.create q) [] 0 0 := by
  obtain ⟨hq, rfl⟩ := nvmQueueClear_ok h
  refine ⟨?_, ?_, ?_, ?_, ?_, ?_, ?_, ?_, ?_, ?_, ?_, ?_, ?_, ?_, ?_⟩ <;>
    simp [CqRing.create, lapBit_zero, NvmCpl.phaseTag_zero] <;> omega

section Step

variable {r : CqRing} {posted : List NvmCpl} {t c : Nat}

/-- The tag test of `nvm_cq_poll` tells posted entries from stale ones. -/
theorem CqInv.poll (h : CqInv r posted t c) :
    nvmCqPoll r.q r.mem = if t < posted.length then some (t % r.q.qs) else none := by
  have hn : 0 < r.q.qs := by have := h.qs_ge; omega
  have := h.room; have := h.ack_le; have hle := h.taken_le
  unfold nvmCqPoll
  rw [h.head_eq, h.hphase_eq]
  by_cases hlt : t < posted.length
  · -- the head slot holds entry `t`, tagged with the lap of `t`
    have hs := h.slot t hlt (by omega)
    rw [if_pos hlt, if_neg (by simp [h.tagged t _ hs])]
  · have ht : t = posted.length := by omega
    rw [if_neg hlt, if_pos]
    by_cases hq : t < r.q.qs
    · -- first lap: the slot has never been written
      rw [Nat.mod_eq_of_lt hq, h.blank t (by omega) hq, lapBit_of_lt hq]
      simp
    · -- the slot still holds entry `t - qs`, of the lap before
      have hs := h.slot (t - r.q.qs) (by omega) (by omega)
      have hm : (t - r.q.qs) % r.q.qs = t % r.q.qs := by
        rw [← Nat.add_mod_right, Nat.sub_add_cancel (by omega)]
      rw [hm] at hs
      have hl := lapBit_add_lap hn (t - r.q.qs)
      rw [Nat.sub_add_cancel (by omega)] at hl
      rw [h.tagged _ _ hs, hl]
      simp

theorem CqInv.not_full_room (h : CqInv r posted t c) (hf : r.full = false) :
    posted.length + 1 < c + r.q.qs := by
  have hn : 0 < r.q.qs := by have := h.qs_ge; omega
  have := h.room
  by_contra hc
  have he : posted.length + 1 = c + r.q.qs := by omega
  simp [CqRing.full, h.tail_eq, ringNext_mod hn, h.db_eq, he] at hf

theorem CqInv.not_full (h : CqInv r posted t c) (hroom : posted.length + 1 < c + r.q.qs) :
    r.full = false := by
  have hn : 0 < r.q.qs := by have := h.qs_ge; omega
  have := h.ack_le; have := h.taken_le
  simp only [CqRing.full, h.tail_eq, ringNext_mod hn, h.db_eq, decide_eq_false_iff_not]
  intro he
  have := mod_inj_window he (by omega) (by omega)
  omega

theorem CqInv.post (h : CqInv r posted t c) (hf : r.full = false) (e : NvmCpl) :
    CqInv (r.post e) (posted ++ [r.entry e]) t c := by
  have hn : 0 < r.q.qs := by have := h.qs_ge; omega
  have hroom := h.not_full_room hf
  have hack := h.ack_le
  have htak := h.taken_le
  refine ⟨h.qs_ge, h.qs_le, h.db_some, ?_, ?_, h.head_eq, h.hphase_eq, h.last_eq, h.db_eq,
    h.ack_le, ?_, ?_, ?_, ?_, ?_⟩
  · simp [CqRing.post, h.tail_eq, ringNext_mod hn]
  · have hw : (posted.length % r.q.qs + 1 = r.q.qs) ↔ (posted.length + 1) % r.q.qs = 0 := by
      have hr := ringNext_mod hn posted.length
      have := Nat.mod_lt posted.length hn
      unfold ringNext at hr
      split at hr <;> omega
    simp only [CqRing.post, h.tail_eq, h.phase_eq, List.length_append, List.length_singleton,
      lapBit_succ]
    by_cases hc : (posted.length + 1) % r.q.qs = 0
    · rw [if_pos (hw.mpr hc), if_pos hc]
    · rw [if_neg (fun x => hc (hw.mp x)), if_neg hc]
  · simp only [List.length_append, List.length_singleton]; omega
  · simp only [CqRing.post, List.length_append, List.length_singleton]; omega
  · intro k hk hk'
    simp only [CqRing.post, List.length_append, List.length_singleton] at hk hk' ⊢
    by_cases hkl : k = posted.length
    · subst hkl
      simp [h.tail_eq]
    · have hne : k % r.q.qs ≠ posted.length % r.q.qs := by
        intro he
        exact hkl (mod_inj_window he (by omega) (by omega))
      rw [h.tail_eq, Function.update_of_ne hne, List.getElem?_append_left (by omega)]
      exact h.slot k (by omega) (by omega)
  · refine forall_snoc h.tagged ?_
    rw [CqRing.entry, NvmCpl.phaseTag_withPhase, h.phase_eq]
    rfl
  · intro k hk hkq
    simp only [CqRing.post, List.length_append, List.length_singleton] at hk hkq ⊢
    have hlt : posted.length < r.q.qs := by omega
    rw [h.tail_eq, Nat.mod_eq_of_lt hlt, Function.update_of_ne (by omega)]
    exact h.blank k (by omega) hkq

theorem CqInv.dequeue_none (h : CqInv r posted t c) (ht : t = posted.length) :
    r.dequeue = (none, r) := by
  have hp := h.poll
  rw [if_neg (by omega)] at hp
  simp [CqRing.dequeue, nvmCqDequeue, hp]

theorem CqInv.dequeue_some (h : CqInv r posted t c) (ht : t < posted.length) :
    r.dequeue.1 = some (t % r.q.qs) ∧ posted[t]? = some (r.mem (t % r.q.qs)) ∧
      r.dequeue.2.mem = r.mem ∧ r.dequeue.2.q.qs = r.q.qs ∧ CqInv r.dequeue.2 posted (t + 1) c := by
  have hn : 0 < r.q.qs := by have := h.qs_ge; omega
  have hroom := h.room
  have hack := h.ack_le
  have hp := h.poll
  rw [if_pos ht] at hp
  have hlt : t % r.q.qs < r.q.qs := Nat.mod_lt t hn
  have hd : r.dequeue = (some (t % r.q.qs),
      { r with q := { r.q with head := (t + 1) % r.q.qs, phase := lapBit r.q.qs (t + 1) } }) := by
    have hr := u32_succ_ring h.qs_le hlt
    rw [ringNext_mod hn] at hr
    have hq := h.qs_le
    simp only [CqRing.dequeue, nvmCqDequeue, hp, h.head_eq, h.hphase_eq, lapBit_succ]
    have hu : u32 (t % r.q.qs + 1) = t % r.q.qs + 1 := u32_of_lt (by omega)
    rw [hu] at hr ⊢
    by_cases hw : t % r.q.qs + 1 = r.q.qs
    · rw [if_pos hw] at hr ⊢
      rw [← hr]
      simp
    · rw [if_neg hw] at hr ⊢
      rw [← hr]
      simp
  rw [hd]
  refine ⟨rfl, h.slot t ht (by omega), rfl, rfl, h.qs_ge, h.qs_le, h.db_some, h.tail_eq, h.phase_eq,
    rfl, rfl, h.last_eq, h.db_eq, ?_, ?_, h.room, h.slot, h.tagged, h.blank⟩
  · exact hack.trans (Nat.le_succ t)
  · exact ht

/-- `nvm_cq_update` acknowledges everything dequeued. When `last == head` the write is skipped;
then nothing was dequeued since the last doorbell, because a whole lap would need `qs` entries
and the controller stops one short of that. -/
theorem CqInv.update (h : CqInv r posted t c) : CqInv r.update posted t t := by
  have hn : 0 < r.q.qs := by have := h.qs_ge; omega
  have hroom := h.room
  have hack := h.ack_le
  have htak := h.taken_le
  by_cases hw : r.q.last = r.q.head
  · have hct : c = t := by
      rw [h.last_eq, h.head_eq] at hw
      exact mod_inj_window hw (by omega) (by omega)
    have hu : r.update = r := by simp [CqRing.update, nvmCqUpdate, hw]
    rw [hu]
    subst hct
    exact h
  · have hu : r.update =
        { r with
          q := { r.q with tail := r.q.head, last := r.q.head }
          db := r.q.head } := by
      simp [CqRing.update, nvmCqUpdate, hw, h.db_some]
    rw [hu]
    refine ⟨h.qs_ge, h.qs_le, h.db_some, h.tail_eq, h.phase_eq, h.head_eq, h.hphase_eq, h.head_eq,
      h.head_eq, le_refl t, htak, ?_, h.slot, h.tagged, h.blank⟩
    show posted.length < t + r.q.qs
    omega

theorem CqInv.update_db (h : CqInv r posted t c) : r.update.db = r.update.q.head := by
  rw [h.update.db_eq, h.update.head_eq]

end Step

/-! ## Whole runs -/

/-- A completion queue with its history: the entries posted and dequeued so far, and the slots
(with the entry read there) handed out since the last `nvm_cq_update`. -/
structure CqSys where
  ring : CqRing
  posted : List NvmCpl
  taken : List NvmCpl
  held : List (Nat × NvmCpl)

inductive CqAct where
  | post (e : NvmCpl)
  | dequeue
  | update

namespace CqSys

def create (q : NvmQueue) : CqSys := ⟨.create q, [], [], []⟩

/-- One step. The controller posts only when the queue is not full for it. -/
def step (s : CqSys) : CqAct → Option CqSys
  | .post e =>
    if s.ring.full then none
    else some { s with ring := s.ring.post e, posted := s.posted ++ [s.ring.entry e] }
  | .dequeue =>
    match s.ring.dequeue with
    | (none, r) => some { s with ring := r }
    | (some k, r) =>
      some { s with ring := r, taken := s.taken ++ [r.mem k], held := s.held ++ [(k, r.mem k)] }
  | .update => some { s with ring := s.ring.update, held := [] }

/-- `CqInv` with the history: the entries dequeued are the first ones posted, and each slot handed
out since the last doorbell belongs to an entry not acknowledged yet. -/
def Inv (s : CqSys) : Prop :=
  ∃ c, CqInv s.ring s.posted s.taken.length c ∧ s.taken = s.posted.take s.taken.length ∧
    ∀ x ∈ s.held, ∃ k, c ≤ k ∧ k < s.taken.length ∧ x.1 = k % s.ring.q.qs ∧
      s.posted[k]? = some x.2

theorem step_inv {s s' : CqSys} {a : CqAct} (h : s.Inv) (hs : s.step a = some s') : s'.Inv := by
  obtain ⟨c, hc, ht, hh⟩ := h
  cases a with
  | post e =>
    simp only [step] at hs
    split at hs
    · cases hs
    · rename_i hf
      cases hs
      refine ⟨c, hc.post (by simpa using hf) e, ?_, ?_⟩
      · rw [List.take_append_of_le_length hc.taken_le]
        exact ht
      · intro x hx
        obtain ⟨k, h1, h2, h3, h4⟩ := hh x hx
        have := hc.taken_le
        exact ⟨k, h1, h2, h3, by rw [List.getElem?_append_left (by omega)]; exact h4⟩
  | dequeue =>
    simp only [step] at hs
    by_cases hlt : s.taken.length < s.posted.length
    · obtain ⟨hd1, hd2, hd3, hd4, hd5⟩ := hc.dequeue_some hlt
      generalize hdq : s.ring.dequeue = d at hs hd1 hd3 hd4 hd5
      obtain ⟨o, r⟩ := d
      simp only at hd1 hd3 hd4 hd5
      subst hd1
      cases hs
      refine ⟨c, by simpa using hd5, ?_, ?_⟩
      · rw [List.length_append, List.length_singleton, List.take_add_one, ← ht, hd2, hd3]
        rfl
      · intro x hx
        simp only [List.mem_append, List.mem_singleton] at hx
        simp only [List.length_append, List.length_singleton]
        rcases hx with hx | rfl
        · obtain ⟨k, h1, h2, h3, h4⟩ := hh x hx
          exact ⟨k, h1, by omega, by rw [hd4]; exact h3, h4⟩
        · exact ⟨s.taken.length, hc.ack_le, by omega, by rw [hd4], by rw [hd3]; exact hd2⟩
    · have := hc.taken_le
      rw [hc.dequeue_none (by omega)] at hs
      cases hs
      exact ⟨c, hc, ht, hh⟩
  | update =>
    cases hs
    exact ⟨s.taken.length, hc.update, ht, fun x hx => absurd hx (by simp)⟩

theorem Inv.facts {s : CqSys} (h : s.Inv) :
    s.taken <+: s.posted ∧ (s.ring.dequeue.1 = none ↔ s.taken = s.posted) ∧
      (∀ x ∈ s.held, s.ring.mem x.1 = x.2) ∧ s.ring.update.db = s.ring.update.q.head := by
  obtain ⟨c, hc, ht, hh⟩ := h
  refine ⟨?_, ?_, ?_, hc.update_db⟩
  · rw [ht]
    exact List.take_prefix _ _
  · by_cases hlt : s.taken.length < s.posted.length
    · rw [(hc.dequeue_some hlt).1]
      refine ⟨fun hn => (by cases hn), fun he => ?_⟩
      rw [he] at hlt
      omega
    · have hle := hc.taken_le
      rw [hc.dequeue_none (by omega)]
      refine ⟨fun _ => ?_, fun _ => rfl⟩
      rw [ht, List.take_of_length_le (by omega)]
  · intro x hx
    obtain ⟨k, h1, h2, h3, h4⟩ := hh x hx
    have h5 := hc.slot k (by have := hc.taken_le; omega) (by have := hc.room; omega)
    rw [h4] at h5
    rw [h3]
    exact (Option.some.inj h5).symm

end CqSys

/-- From a queue that `nvm_queue_clear` accepts, over zeroed memory, and in every state reached by
controller posts, `nvm_cq_dequeue` and `nvm_cq_update` calls in any order: the entries dequeued are
a prefix of the entries posted; the next dequeue finds nothing exactly when all posted entries have
been dequeued; the entries handed out since the last update are still in their slots; and an update
leaves the head doorbell equal to the host's head. -/
theorem cq_exact (ctrl : NvmCtrl) (no qs vaddr : Nat) (loc : Bool) (ioaddr : BitVec 64)
    (q : NvmQueue) (hq : nvmQueueClear ctrl true no qs loc vaddr ioaddr = .ok q)
    (tr : List (CqSys × CqAct)) (s : CqSys) (hr : Run CqSys.step (.create q) tr s) :
    s.taken <+: s.posted ∧ (s.ring.dequeue.1 = none ↔ s.taken = s.posted) ∧
      (∀ x ∈ s.held, s.ring.mem x.1 = x.2) ∧
      ∀ s', s.step .update = some s' → s'.ring.db = s'.ring.q.head := by
  have h0 : (CqSys.create q).Inv :=
    ⟨0, CqInv.create hq, rfl, fun x hx => absurd hx (by simp [CqSys.create])⟩
  have hi : s.Inv := Run.inv_all CqSys.Inv (fun _ _ _ => CqSys.step_inv) hr h0
  obtain ⟨h1, h2, h3, h4⟩ := hi.facts
  refine ⟨h1, h2, h3, ?_⟩
  intro s' hs'
  cases hs'
  exact h4

/-- Two slots, so that the second entry wraps the ring. -/
theorem cq_exact_two_slots :
    let ctrl : NvmCtrl := ⟨4096, 0, 500, 1024⟩
    ∃ q, nvmQueueClear ctrl true 1 2 true 0 0 = .ok q ∧
      ∃ tr s, Run CqSys.step (.create q) tr s ∧ s.posted.length = 2 ∧ s.taken.length = 2 ∧
        s.taken <+: s.posted ∧ ∀ x ∈ s.held, s.ring.mem x.1 = x.2 := by
  intro ctrl
  have hr : Run CqSys.step (.create ⟨1, 16, 2, 0, 0, 0, true, true, some (cqDbl 1 0), 0, 0⟩) _ _ :=
    .cons (l := .post .zero) rfl (.cons (l := .dequeue) rfl (.cons (l := .update) rfl
      (.cons (l := .post .zero) rfl (.cons (l := .dequeue) rfl .refl))))
  have h := cq_exact ctrl 1 2 0 true 0 _ rfl _ _ hr
  exact ⟨_, rfl, _, _, hr, rfl, rfl, h.1, h.2.2.1⟩

end Nvm
end UGDS
