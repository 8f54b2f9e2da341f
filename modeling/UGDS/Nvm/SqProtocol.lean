import UGDS.Lib.Steps
import UGDS.Nvm.Queue

/-!
# UGDS.Nvm.SqProtocol

The submission ring: a slot is not handed out again before the controller has fetched the command
in it, and a doorbell is never missed.

`SqInv` relates a ring to four counts: commands enqueued (the length of `cmds`), submitted (`s`),
fetched (`f`) and retired by `nvm_sq_update` (`u`). `nvm_sq_update` counts completions, whatever
command they belong to, so `u ≤ f`: a completion is only posted for a fetched command. That is
enough for the full test, which compares the tail with the retired count, to protect the commands
not fetched yet.

* `SqInv.sq_full_test`: the source's test, a 32-bit difference cut to 16 bits, is the number of commands
  not retired when the size is a power of two.
* `SqInv.enqueue`, `SqInv.submit`, `SqInv.fetch`, `SqInv.update`: the step lemmas.
* `sq_exact`: the ring over whole runs.
-/

namespace UGDS
namespace Nvm

open Lib

/-- The invariant of a submission ring; `cmds` are the commands written so far, oldest first. -/
structure SqInv (r : SqRing) (cmds : List NvmCmd) (s f u : Nat) : Prop where
  pow : ∃ k, 1 ≤ k ∧ k ≤ 16 ∧ r.q.qs = 2 ^ k
  db_some : r.q.db ≠ none
  tail_eq : r.q.tail = cmds.length % r.q.qs
  head_eq : r.q.head = u % r.q.qs
  last_eq : r.q.last = s % r.q.qs
  db_eq : r.db = s % r.q.qs
  dev_eq : r.devHead = f % r.q.qs
  upd_le : u ≤ f
  fet_le : f ≤ s
  sub_le : s ≤ cmds.length
  room : cmds.length < u + r.q.qs
  slot : ∀ k, f ≤ k → k < cmds.length → cmds[k]? = some (r.mem (k % r.q.qs))

theorem SqInv.create {ctrl : NvmCtrl} {no k vaddr : Nat} {loc : Bool} {ioaddr : BitVec 64}
    {q : NvmQueue} (hk : 1 ≤ k) (hk' : k ≤ 16)
    (h : nvmQueueClear ctrl false no (2 ^ k) loc vaddr ioaddr = .ok q) :
    SqInv (.create q) [] 0 0 0 := by
  obtain ⟨-, rfl⟩ := nvmQueueClear_ok h
  refine ⟨⟨k, hk, hk', rfl⟩, ?_, ?_, ?_, ?_, ?_, ?_, ?_, ?_, ?_, ?_, ?_⟩ <;>
    simp [SqRing.create]

section Step

variable {r : SqRing} {cmds : List NvmCmd} {s f u : Nat}

theorem SqInv.qs_bounds (h : SqInv r cmds s f u) : 2 ≤ r.q.qs ∧ r.q.qs ≤ 65536 := by
  obtain ⟨k, h1, h2, hk⟩ := h.pow
  rw [hk]
  constructor
  · calc 2 = 2 ^ 1 := rfl
      _ ≤ 2 ^ k := Nat.pow_le_pow_right (by decide) h1
  · calc 2 ^ k ≤ 2 ^ 16 := Nat.pow_le_pow_right (by decide) h2
      _ = 65536 := rfl

/-- The full test of `nvm_sq_enqueue` computes the number of commands not retired. -/
theorem SqInv.sq_full_test (h : SqInv r cmds s f u) :
    u16 (u32 (r.q.tail + (2 ^ 32 - r.q.head))) % r.q.qs = cmds.length - u := by
  obtain ⟨k, h1, h2, hk⟩ := h.pow
  have hroom := h.room
  have hle := h.upd_le
  have hle' := h.fet_le
  have hle'' := h.sub_le
  have hd16 : r.q.qs ∣ 2 ^ 16 := hk ▸ Nat.pow_dvd_pow 2 h2
  have hd32 : r.q.qs ∣ 2 ^ 32 := hd16.trans (Nat.pow_dvd_pow 2 (by decide))
  have hb := h.qs_bounds
  have hc : cmds.length = u + (cmds.length - u) := by omega
  rw [u16, u32, Nat.mod_mod_of_dvd _ (Nat.pow_dvd_pow 2 (by decide)), Nat.mod_mod_of_dvd _ hd16,
    h.tail_eq, h.head_eq]
  conv_lhs => rw [hc]
  exact ring_distance hd32 (by omega) (by omega)

theorem SqInv.enqueue_none (h : SqInv r cmds s f u) (hf : cmds.length + 1 = u + r.q.qs) :
    r.enqueue = none := by
  have hb := h.qs_bounds
  have ht := h.sq_full_test
  simp only [SqRing.enqueue, nvmSqEnqueue, ht]
  rw [if_pos (by omega)]
  rfl

/-- With room left, `nvm_sq_enqueue` hands out slot `cmds.length % qs`; only the tail and the
phase of the descriptor move. -/
theorem SqInv.enqueue_some (h : SqInv r cmds s f u) (hf : cmds.length + 1 < u + r.q.qs) :
    ∃ p, r.enqueue = some (cmds.length % r.q.qs,
      { r with q := { r.q with tail := (cmds.length + 1) % r.q.qs, phase := p } }) := by
  have hb := h.qs_bounds
  have ht := h.sq_full_test
  have hlt : cmds.length % r.q.qs < r.q.qs := Nat.mod_lt _ (by omega)
  have hr := u32_succ_ring hb.2 hlt
  rw [ringNext_mod (by omega)] at hr
  have hle := h.upd_le
  have hle' := h.fet_le
  have hle'' := h.sub_le
  simp only [SqRing.enqueue, nvmSqEnqueue, ht]
  rw [if_neg (by omega), h.tail_eq]
  by_cases hw : u32 (cmds.length % r.q.qs + 1) = r.q.qs
  · rw [if_pos hw] at hr ⊢
    exact ⟨!r.q.phase, by rw [← hr]; rfl⟩
  · rw [if_neg hw] at hr ⊢
    exact ⟨r.q.phase, by rw [← hr]; rfl⟩

/-- The slot handed out is not that of a command the controller still has to fetch. -/
theorem SqInv.slot_free (h : SqInv r cmds s f u) {k : Nat} (hk : f ≤ k) (hk' : k < cmds.length) :
    k % r.q.qs ≠ cmds.length % r.q.qs := by
  have hroom := h.room
  have hle := h.upd_le
  intro he
  have := mod_inj_window he (by omega) (by omega)
  omega

theorem SqInv.enqueue (h : SqInv r cmds s f u) (hf : cmds.length + 1 < u + r.q.qs) :
    ∃ r', r.enqueue = some (cmds.length % r.q.qs, r') ∧ r'.q.qs = r.q.qs ∧
      ∀ cmd, SqInv (r'.write (cmds.length % r.q.qs) cmd) (cmds ++ [cmd]) s f u := by
  obtain ⟨p, hp⟩ := h.enqueue_some hf
  refine ⟨_, hp, rfl, ?_⟩
  intro cmd
  refine ⟨h.pow, h.db_some, ?_, h.head_eq, h.last_eq, h.db_eq, h.dev_eq, h.upd_le, h.fet_le, ?_,
    ?_, ?_⟩
  · simp [SqRing.write]
  · have := h.sub_le
    simp only [List.length_append, List.length_singleton]
    omega
  · simpa [SqRing.write] using hf
  · intro k hk hk'
    simp only [List.length_append, List.length_singleton] at hk'
    simp only [SqRing.write]
    by_cases he : k = cmds.length
    · subst he
      simp
    · have hne := h.slot_free hk (by omega)
      rw [Function.update_of_ne hne, List.getElem?_append_left (by omega)]
      exact h.slot k hk (by omega)

/-- `nvm_sq_submit` submits everything enqueued. When `last == tail` the doorbell is skipped;
then nothing is pending, because fewer than `qs` commands are ever outstanding. -/
theorem SqInv.submit (h : SqInv r cmds s f u) : SqInv r.submit cmds cmds.length f u := by
  have hroom := h.room
  have hle := h.upd_le
  have hle' := h.fet_le
  have hle'' := h.sub_le
  by_cases hw : r.q.last = r.q.tail
  · have hsc : s = cmds.length := by
      rw [h.last_eq, h.tail_eq] at hw
      exact mod_inj_window hw (by omega) (by omega)
    have hu : r.submit = r := by simp [SqRing.submit, nvmSqSubmit, hw]
    rw [hu]
    subst hsc
    exact h
  · have hu : r.submit = { r with q := { r.q with last := r.q.tail }, db := r.q.tail } := by
      simp [SqRing.submit, nvmSqSubmit, hw, h.db_some]
    rw [hu]
    exact ⟨h.pow, h.db_some, h.tail_eq, h.head_eq, h.tail_eq, h.tail_eq, h.dev_eq, h.upd_le,
      hle'.trans hle'', le_refl _, h.room, h.slot⟩

theorem SqInv.submit_db (h : SqInv r cmds s f u) : r.submit.db = r.submit.q.tail := by
  rw [h.submit.db_eq, h.submit.tail_eq]

/-- The `last != tail` test of `nvm_sq_submit` sees every pending command. -/
theorem SqInv.pending_seen (h : SqInv r cmds s f u) (hp : s < cmds.length) :
    r.q.last ≠ r.q.tail := by
  have hroom := h.room
  have hle := h.upd_le
  have hle' := h.fet_le
  rw [h.last_eq, h.tail_eq]
  intro he
  have := mod_inj_window he (by omega) (by omega)
  omega

theorem SqInv.fetch_none (h : SqInv r cmds s f u) (hf : f = s) : r.fetch = none := by
  simp [SqRing.fetch, h.dev_eq, h.db_eq, hf]

theorem SqInv.fetch (h : SqInv r cmds s f u) (hf : f < s) :
    ∃ cmd r', r.fetch = some (cmd, r') ∧ cmds[f]? = some cmd ∧ r'.q = r.q ∧ r'.mem = r.mem ∧
      SqInv r' cmds s (f + 1) u := by
  have hb := h.qs_bounds
  have hroom := h.room
  have hle := h.upd_le
  have hle'' := h.sub_le
  have hne : r.devHead ≠ r.db := by
    rw [h.dev_eq, h.db_eq]
    intro he
    have := mod_inj_window he (by omega) (by omega)
    omega
  refine ⟨r.mem r.devHead, { r with devHead := ringNext r.q.qs r.devHead }, ?_, ?_, rfl, rfl, ?_⟩
  · simp [SqRing.fetch, hne]
  · rw [h.dev_eq]
    exact h.slot f (le_refl f) (by omega)
  · exact ⟨h.pow, h.db_some, h.tail_eq, h.head_eq, h.last_eq, h.db_eq,
      by simp only [h.dev_eq]; exact ringNext_mod (by omega) f, hle.trans (Nat.le_succ f), hf,
      h.sub_le, h.room, fun k hk hk' => h.slot k (by omega) hk'⟩

theorem SqInv.update (h : SqInv r cmds s f u) (hu : u < f) : SqInv r.update cmds s f (u + 1) := by
  have hb := h.qs_bounds
  have hlt : u % r.q.qs < r.q.qs := Nat.mod_lt _ (by omega)
  have hr := u32_succ_ring hb.2 hlt
  rw [ringNext_mod (by omega)] at hr
  have he : r.update = { r with q := { r.q with head := (u + 1) % r.q.qs } } := by
    simp only [SqRing.update, nvmSqUpdate, h.db_some, h.head_eq, if_false]
    by_cases hw : u32 (u % r.q.qs + 1) = r.q.qs
    · rw [if_pos hw] at hr ⊢
      rw [← hr]
    · rw [if_neg hw] at hr ⊢
      rw [← hr]
  have hroom := h.room
  rw [he]
  refine ⟨h.pow, h.db_some, h.tail_eq, rfl, h.last_eq, h.db_eq, h.dev_eq, hu, h.fet_le, h.sub_le,
    ?_, h.slot⟩
  show cmds.length < u + 1 + r.q.qs
  omega

end Step

/-! ## Whole runs -/

/-- A submission queue with its history: the slot and command of every successful enqueue, how
many of them a doorbell covers, the commands the controller fetched, the numbers of those it has
not completed, and how many completions were posted and used for an `nvm_sq_update`. -/
structure SqSys where
  ring : SqRing
  enq : List (Nat × NvmCmd)
  submitted : Nat
  fetched : List NvmCmd
  inflight : List Nat
  completed : Nat
  retired : Nat

inductive SqAct where
  | enqueue (cmd : NvmCmd)
  | submit
  | fetch
  | complete (i : Nat)
  | update

namespace SqSys

def create (q : NvmQueue) : SqSys := ⟨.create q, [], 0, [], [], 0, 0⟩

/-- One step. The controller completes any command it has fetched; the host calls
`nvm_sq_update` once for each completion. -/
def step (s : SqSys) : SqAct → Option SqSys
  | .enqueue cmd =>
    match s.ring.enqueue with
    | none => some s
    | some (slot, r) => some { s with ring := r.write slot cmd, enq := s.enq ++ [(slot, cmd)] }
  | .submit => some { s with ring := s.ring.submit, submitted := s.enq.length }
  | .fetch =>
    match s.ring.fetch with
    | none => none
    | some (cmd, r) =>
      some { s with
        ring := r
        fetched := s.fetched ++ [cmd]
        inflight := s.inflight ++ [s.fetched.length] }
  | .complete i =>
    if i ∈ s.inflight then
      some { s with inflight := s.inflight.erase i, completed := s.completed + 1 }
    else none
  | .update =>
    if s.retired < s.completed then
      some { s with ring := s.ring.update, retired := s.retired + 1 }
    else none

/-- `SqInv` with the history, for a ring of `n` slots. -/
structure Inv (n : Nat) (s : SqSys) : Prop where
  ring : SqInv s.ring (s.enq.map Prod.snd) s.submitted s.fetched.length s.retired
  qs : s.ring.q.qs = n
  slots : ∀ k x, s.enq[k]? = some x → x.1 = k % n
  fetched : s.fetched = (s.enq.map Prod.snd).take s.fetched.length
  count : s.inflight.length + s.completed = s.fetched.length
  retired : s.retired ≤ s.completed

theorem Inv.create {ctrl : NvmCtrl} {no k vaddr : Nat} {loc : Bool} {ioaddr : BitVec 64}
    {q : NvmQueue} (hk : 1 ≤ k) (hk' : k ≤ 16)
    (h : nvmQueueClear ctrl false no (2 ^ k) loc vaddr ioaddr = .ok q) :
    Inv (2 ^ k) (create q) := by
  refine ⟨SqInv.create hk hk' h, ?_, fun k x hx => by simp [SqSys.create] at hx, rfl, rfl,
    le_refl 0⟩
  obtain ⟨-, rfl⟩ := nvmQueueClear_ok h
  rfl

theorem step_inv {n : Nat} {s s' : SqSys} {a : SqAct} (h : s.Inv n) (hs : s.step a = some s') :
    s'.Inv n := by
  have hr := h.ring
  have hlen : (s.enq.map Prod.snd).length = s.enq.length := List.length_map _
  cases a with
  | enqueue cmd =>
    simp only [step] at hs
    have hroom := hr.room
    by_cases hf : (s.enq.map Prod.snd).length + 1 < s.retired + s.ring.q.qs
    · obtain ⟨r', he, hq, hi⟩ := hr.enqueue hf
      rw [he, hlen, h.qs] at hs
      cases hs
      have hle : s.fetched.length ≤ (s.enq.map Prod.snd).length := hr.fet_le.trans hr.sub_le
      refine ⟨?_, hq.trans h.qs, forall_snoc h.slots rfl, ?_, h.count, h.retired⟩
      · have := hi cmd
        rw [hlen, h.qs] at this
        simpa using this
      · show s.fetched = ((s.enq ++ [_]).map Prod.snd).take s.fetched.length
        rw [List.map_append, List.take_append_of_le_length hle]
        exact h.fetched
    · rw [hr.enqueue_none (by omega)] at hs
      cases hs
      exact h
  | submit =>
    cases hs
    have hsub := hr.submit
    rw [hlen] at hsub
    exact ⟨hsub, (SqRing.submit_qs _).trans h.qs, h.slots, h.fetched, h.count, h.retired⟩
  | fetch =>
    simp only [step] at hs
    by_cases hf : s.fetched.length < s.submitted
    · obtain ⟨cmd, r', he, hc, hq, hm, hi⟩ := hr.fetch hf
      rw [he] at hs
      cases hs
      refine ⟨by simpa using hi, by rw [hq]; exact h.qs, h.slots, ?_, ?_, h.retired⟩
      · rw [List.length_append, List.length_singleton, List.take_add_one, ← h.fetched, hc]
        rfl
      · have := h.count
        simp only [List.length_append, List.length_singleton]
        omega
    · have := hr.fet_le
      rw [hr.fetch_none (by omega)] at hs
      cases hs
  | complete i =>
    simp only [step] at hs
    split at hs
    · rename_i hi
      cases hs
      refine ⟨hr, h.qs, h.slots, h.fetched, ?_, h.retired.trans (Nat.le_succ _)⟩
      have := h.count
      have := List.length_erase_of_mem hi
      have := List.length_pos_of_mem hi
      simp only
      omega
    · cases hs
  | update =>
    simp only [step] at hs
    split at hs
    · rename_i hu
      cases hs
      have := h.count
      exact ⟨hr.update (by omega), (SqRing.update_qs _).trans h.qs, h.slots, h.fetched, h.count, hu⟩
    · cases hs

/-- A command the controller has not fetched is in its slot, and its slot is not the next one. -/
theorem Inv.unfetched {n : Nat} {s : SqSys} (h : s.Inv n) {i : Nat} {x : Nat × NvmCmd}
    (hi : s.fetched.length ≤ i) (hx : s.enq[i]? = some x) :
    s.ring.mem x.1 = x.2 ∧ x.1 ≠ s.enq.length % n := by
  obtain ⟨hlt, -⟩ := List.getElem?_eq_some_iff.mp hx
  have hlen : (s.enq.map Prod.snd).length = s.enq.length := List.length_map _
  have hslot := h.ring.slot i hi (by omega)
  have hfree := h.ring.slot_free hi (by omega)
  rw [List.getElem?_map, hx, h.qs] at hslot
  rw [hlen, h.qs] at hfree
  rw [h.slots i x hx]
  exact ⟨(Option.some.inj hslot).symm, hfree⟩

theorem Inv.enqueue_slot {n : Nat} {s : SqSys} (h : s.Inv n) {slot : Nat} {r : SqRing}
    (he : s.ring.enqueue = some (slot, r)) : slot = s.enq.length % n := by
  have hroom := h.ring.room
  by_cases hf : (s.enq.map Prod.snd).length + 1 < s.retired + s.ring.q.qs
  · obtain ⟨r', he', -⟩ := h.ring.enqueue hf
    rw [he', List.length_map, h.qs] at he
    cases he
    rfl
  · rw [h.ring.enqueue_none (by omega)] at he
    cases he

end SqSys

/-- From a queue of a power-of-two size that `nvm_queue_clear` accepts, and in every state reached
by enqueues, submits, controller fetches, completions in any order and one `nvm_sq_update` per
completion: the slot the next enqueue hands out is not that of a command not fetched yet; commands
not fetched are intact in their slots and the controller has fetched exactly the commands enqueued,
in order; fewer than `qs` commands are enqueued and not retired; and a submit leaves the tail
doorbell equal to the host's tail, its `last != tail` test passing whenever a command is pending. -/
theorem sq_exact (ctrl : NvmCtrl) (no k vaddr : Nat) (loc : Bool) (ioaddr : BitVec 64)
    (q : NvmQueue) (hk : 1 ≤ k) (hk' : k ≤ 16)
    (hq : nvmQueueClear ctrl false no (2 ^ k) loc vaddr ioaddr = .ok q)
    (tr : List (SqSys × SqAct)) (s : SqSys) (hr : Run SqSys.step (.create q) tr s) :
    (∀ slot r, s.ring.enqueue = some (slot, r) →
        ∀ i x, s.fetched.length ≤ i → s.enq[i]? = some x → x.1 ≠ slot) ∧
      (∀ i x, s.fetched.length ≤ i → s.enq[i]? = some x → s.ring.mem x.1 = x.2) ∧
      s.fetched = (s.enq.map Prod.snd).take s.fetched.length ∧
      s.enq.length ≤ s.retired + (2 ^ k - 1) ∧
      (∀ s', s.step .submit = some s' → s'.ring.db = s'.ring.q.tail) ∧
      (s.submitted < s.enq.length → s.ring.q.last ≠ s.ring.q.tail) := by
  have hi : s.Inv (2 ^ k) :=
    Run.inv_all (SqSys.Inv (2 ^ k)) (fun _ _ _ => SqSys.step_inv) hr (.create hk hk' hq)
  have hlen : (s.enq.map Prod.snd).length = s.enq.length := List.length_map _
  refine ⟨?_, fun i x hf hx => (hi.unfetched hf hx).1, hi.fetched, ?_, ?_, ?_⟩
  · intro slot r he i x hf hx
    rw [hi.enqueue_slot he]
    exact (hi.unfetched hf hx).2
  · have := hi.ring.room
    rw [hi.qs] at this
    omega
  · intro s' hs'
    cases hs'
    exact hi.ring.submit_db
  · intro hp
    exact hi.ring.pending_seen (by omega)

/-- Two slots: the first command fills the ring, the second enqueue finds it full, and after the
fetch, the completion and the update the slot is free again. -/
theorem sq_exact_two_slots :
    let ctrl : NvmCtrl := ⟨4096, 0, 500, 1024⟩
    ∃ q, nvmQueueClear ctrl false 1 (2 ^ 1) true 0 0 = .ok q ∧
      ∃ tr s, Run SqSys.step (.create q) tr s ∧ s.enq.length = 2 ∧ s.fetched.length = 1 ∧
        s.enq.length ≤ s.retired + (2 ^ 1 - 1) ∧
        ∀ i x, s.fetched.length ≤ i → s.enq[i]? = some x → s.ring.mem x.1 = x.2 := by
  intro ctrl
  have hr : Run SqSys.step (.create ⟨1, 64, 2, 0, 0, 0, true, true, some (sqDbl 1 0), 0, 0⟩) _ _ :=
    .cons (l := .enqueue .zero) rfl (.cons (l := .enqueue .zero) rfl (.cons (l := .submit) rfl
      (.cons (l := .fetch) rfl (.cons (l := .complete 0) rfl (.cons (l := .update) rfl
        (.cons (l := .enqueue .zero) rfl .refl))))))
  have h := sq_exact ctrl 1 1 0 true 0 _ (by decide) (by decide) rfl _ _ hr
  exact ⟨_, rfl, _, _, hr, rfl, rfl, h.2.2.2.1, h.2.1⟩

end Nvm
end UGDS
