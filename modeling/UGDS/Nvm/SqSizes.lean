import Mathlib.Data.Nat.Prime.Basic
import UGDS.Nvm.SqProtocol

/-!
# UGDS.Nvm.SqSizes

Submission queues of any size that `nvm_queue_clear` accepts, not only powers of two: the full test
of `nvm_sq_enqueue`, and the command identifiers of `NVM_DEFAULT_CID`.

The full test reduces the 32-bit difference of the cursors to 16 bits before it takes it modulo the
size. When the tail has wrapped and the head has not, the difference is short of `2^16` and not of
the size. The identifier counts to twice the size, by the tail and the phase, and keeps 16 bits.

* `cursor_difference`: what the full test computes.
* `full_test_exact`: it is the number of commands not retired, for all cursors, exactly when the size
  divides `2^16`.
* `CidInv`: the cursor, the phase and the identifiers after any calls.
* `cids_distinct`: the identifiers of `qs - 1` commands in a row are distinct in every run exactly
  when the size is at most `2^15` or at least `2^16 - 1`.
-/

namespace UGDS
namespace Nvm

open Lib

/-! ## The full test -/

/-- The difference of two cursors as `nvm_sq_enqueue` computes it. -/
theorem cursor_difference {tail head : Nat} (ht : tail < 65536) (hh : head < 65536) :
    u16 (u32 (tail + (2 ^ 32 - head))) =
      if head ≤ tail then tail - head else 65536 + tail - head := by
  simp only [u16, u32]
  split <;> omega

/-- A submission queue whose cursors are slots. -/
structure NvmQueue.InRange (q : NvmQueue) : Prop where
  qs_ge : 2 ≤ q.qs
  qs_le : q.qs ≤ 65536
  head_lt : q.head < q.qs
  tail_lt : q.tail < q.qs

/-- `n` calls of `nvm_sq_enqueue`. A call that finds the queue full changes nothing. -/
def enqueues : Nat → NvmQueue → NvmQueue
  | 0, q => q
  | n + 1, q =>
    match nvmSqEnqueue (enqueues n q) with
    | none => enqueues n q
    | some (_, q') => q'

section FullTest

variable {q q' : NvmQueue} {slot : Nat}

theorem nvmSqEnqueue_none_iff (h : q.InRange) :
    nvmSqEnqueue q = none ↔
      (if q.head ≤ q.tail then q.tail - q.head else 65536 + q.tail - q.head) % q.qs = q.qs - 1 := by
  have hle := h.qs_le
  have hh := h.head_lt
  have ht := h.tail_lt
  rw [nvmSqEnqueue, cursor_difference (by omega) (by omega)]
  constructor
  · intro he
    by_contra hn
    rw [if_neg hn] at he
    split at he <;> cases he
  · intro he
    rw [if_pos he]

/-- A slot is handed out at the tail, which moves on to the next one. -/
theorem nvmSqEnqueue_some (h : q.InRange) (he : nvmSqEnqueue q = some (slot, q')) :
    slot = q.tail ∧
      q' = { q with
        tail := ringNext q.qs q.tail
        phase := if q.tail + 1 = q.qs then !q.phase else q.phase } := by
  have hle := h.qs_le
  have ht := h.tail_lt
  have hu : u32 (q.tail + 1) = q.tail + 1 := u32_of_lt (by omega)
  simp only [nvmSqEnqueue, hu] at he
  split at he
  · cases he
  split at he
  · rename_i hw
    cases he
    exact ⟨rfl, by simp [ringNext, hw]⟩
  · rename_i hw
    cases he
    exact ⟨rfl, by simp [ringNext, hw]⟩

theorem NvmQueue.InRange.enqueue (h : q.InRange) (he : nvmSqEnqueue q = some (slot, q')) :
    q'.InRange ∧ q'.qs = q.qs ∧ q'.head = q.head := by
  obtain ⟨-, rfl⟩ := nvmSqEnqueue_some h he
  refine ⟨⟨h.qs_ge, h.qs_le, h.head_lt, ?_⟩, rfl, rfl⟩
  have := h.tail_lt
  simp only [ringNext]
  split <;> omega

theorem NvmQueue.InRange.enqueues (h : q.InRange) (n : Nat) :
    (enqueues n q).InRange ∧ (Nvm.enqueues n q).qs = q.qs := by
  induction n with
  | zero => exact ⟨h, rfl⟩
  | succ n ih =>
    simp only [Nvm.enqueues]
    split
    · exact ih
    · rename_i slot q' he
      obtain ⟨h1, h2, -⟩ := ih.1.enqueue he
      exact ⟨h1, h2.trans ih.2⟩

/-- With a size that divides `2^16` the test sees exactly the full queue. -/
theorem nvmSqEnqueue_full_iff (h : q.InRange) (hd : q.qs ∣ 65536) :
    nvmSqEnqueue q = none ↔ (q.tail + q.qs - q.head) % q.qs = q.qs - 1 := by
  have hh := h.head_lt
  rw [nvmSqEnqueue_none_iff h]
  split
  · rename_i hle
    rw [show q.tail + q.qs - q.head = q.tail - q.head + q.qs by omega, Nat.add_mod_right]
  · rename_i hlt
    obtain ⟨k, hk⟩ := hd
    -- `2^16` is a whole number of laps more than one lap
    have hk1 : 1 ≤ k := by
      rcases Nat.eq_zero_or_pos k with rfl | hpos
      · omega
      · exact hpos
    have hlaps : q.qs * k = q.qs + q.qs * (k - 1) := by
      rw [Nat.mul_sub_one]
      have := Nat.mul_le_mul_left q.qs hk1
      omega
    rw [hk, show q.qs * k + q.tail - q.head = q.tail + q.qs - q.head + q.qs * (k - 1) by omega,
      Nat.add_mul_mod_self_left]

end FullTest

/-- For every position of the cursors, `nvm_sq_enqueue` returns `NULL` exactly when one slot is left,
and no number of enqueues takes the tail to the head. -/
def FullTestExact (q : NvmQueue) : Prop :=
  ∀ head tail, head < q.qs → tail < q.qs →
    let r := { q with head := head, tail := tail }
    (nvmSqEnqueue r = none ↔ (tail + q.qs - head) % q.qs = q.qs - 1) ∧
      ∀ n slot q', nvmSqEnqueue (enqueues n r) = some (slot, q') → q'.tail ≠ q'.head

theorem nvmQueueClear_range {ctrl : NvmCtrl} {cq loc : Bool} {no qs vaddr : Nat}
    {ioaddr : BitVec 64} {q : NvmQueue}
    (h : nvmQueueClear ctrl cq no qs loc vaddr ioaddr = .ok q) :
    q.InRange ∧ q.qs = qs ∧ q.head = 0 ∧ q.tail = 0 ∧ q.phase = true ∧ q.db ≠ none := by
  obtain ⟨hq, rfl⟩ := nvmQueueClear_ok h
  refine ⟨⟨?_, ?_, ?_, ?_⟩, rfl, rfl, rfl, rfl, by simp⟩ <;> simp only <;> omega

/-- A queue of any size that `nvm_queue_clear` accepts: the full test is exact for all cursors, and
the tail never catches up with the head, exactly when the size divides `2^16`, that is, when it is a
power of two. -/
theorem full_test_exact {ctrl : NvmCtrl} {no qs vaddr : Nat} {loc : Bool} {ioaddr : BitVec 64}
    {q : NvmQueue} (hq : nvmQueueClear ctrl false no qs loc vaddr ioaddr = .ok q) :
    FullTestExact q ↔ ∃ k, qs = 2 ^ k := by
  obtain ⟨⟨hge, hle, -, -⟩, rfl, -, -, -, -⟩ := nvmQueueClear_range hq
  have hpow : (∃ k, q.qs = 2 ^ k) ↔ q.qs ∣ 65536 := by
    rw [show (65536 : Nat) = 2 ^ 16 from rfl, Nat.dvd_prime_pow Nat.prime_two]
    constructor
    · rintro ⟨k, hk⟩
      refine ⟨k, ?_, hk⟩
      rw [hk] at hle
      exact (Nat.pow_le_pow_iff_right (by decide : 1 < 2)).mp hle
    · rintro ⟨k, -, hk⟩
      exact ⟨k, hk⟩
  rw [hpow]
  constructor
  · -- the head one slot before the tail's end of the lap: full, but the test sees `2^16 - 1`
    intro h
    have hfull := (h 1 0 (by omega) (by omega)).1
    have hr : ({ q with head := 1, tail := 0 } : NvmQueue).InRange :=
      ⟨hge, hle, Nat.lt_of_succ_le hge, Nat.zero_lt_of_lt hge⟩
    have hnone := (nvmSqEnqueue_none_iff hr).mp (hfull.mpr (by
      rw [Nat.zero_add]
      exact Nat.mod_eq_of_lt (by omega)))
    have hmod : 65535 % q.qs = q.qs - 1 := hnone
    refine Nat.dvd_of_mod_eq_zero ?_
    rw [show (65536 : Nat) = 65535 + 1 from rfl, Nat.add_mod, hmod,
      Nat.mod_eq_of_lt (by omega : 1 < q.qs), Nat.sub_add_cancel (by omega), Nat.mod_self]
  · intro hd head tail hh ht r
    have hr : r.InRange := ⟨hge, hle, hh, ht⟩
    refine ⟨nvmSqEnqueue_full_iff hr hd, ?_⟩
    intro n slot q' he
    obtain ⟨hn, hqs⟩ := hr.enqueues n
    obtain ⟨-, rfl⟩ := nvmSqEnqueue_some hn he
    have hroom : nvmSqEnqueue (enqueues n r) ≠ none := by
      rw [he]
      intro h0
      cases h0
    rw [Ne, nvmSqEnqueue_full_iff hn (by rw [hqs]; exact hd),
      ← ringNext_eq_iff hn.tail_lt hn.head_lt] at hroom
    exact hroom

/-- A power of two, the head at any of the four slots. -/
theorem full_test_exact_four_slots :
    ∃ q, nvmQueueClear ⟨4096, 0, 500, 1024⟩ false 1 4 true 0 0 = .ok q ∧ FullTestExact q := by
  have hq : nvmQueueClear ⟨4096, 0, 500, 1024⟩ false 1 4 true 0 0 = .ok _ := rfl
  exact ⟨_, hq, (full_test_exact hq).mpr ⟨2, rfl⟩⟩

/-- Three slots, the head at slot 1 and the tail at slot 0: two commands are not retired, but
`65535 % 3` is 0 and the third slot is handed out as well. -/
theorem full_test_misses_full :
    ¬ ∀ (ctrl : NvmCtrl) (no qs vaddr : Nat) (loc : Bool) (ioaddr : BitVec 64) (q : NvmQueue),
      nvmQueueClear ctrl false no qs loc vaddr ioaddr = .ok q → FullTestExact q := by
  intro h
  have hq := (h ⟨4096, 0, 500, 1024⟩ 1 3 0 true 0 _ rfl 1 0 (by decide) (by decide)).1
  exact absurd (hq.mpr (by decide)) (by decide)

/-! ## Command identifiers -/

/-- The calls on the host's side of a submission queue. -/
inductive SqCall where
  | enqueue
  | update
  deriving DecidableEq, Repr

/-- The descriptor and the identifiers given out so far. -/
structure CidSys where
  q : NvmQueue
  cids : List (BitVec 16)

/-- One call. A command that gets a slot is given the default identifier of the updated queue. -/
def CidSys.step (s : CidSys) : SqCall → Option CidSys
  | .enqueue =>
    match nvmSqEnqueue s.q with
    | none => some s
    | some (_, q) => some ⟨q, s.cids ++ [nvmDefaultCid q]⟩
  | .update => some { s with q := nvmSqUpdate s.q }

/-- The identifier of the `c`-th command, counted from 1, on a queue of `n` slots. -/
def cidAt (n c : Nat) : BitVec 16 := BitVec.ofNat 16 (c % (2 * n))

/-- After `cids.length` commands on a queue of `n` slots. -/
structure CidInv (n : Nat) (s : CidSys) : Prop where
  range : s.q.InRange
  qs : s.q.qs = n
  db : s.q.db ≠ none
  tail : s.q.tail = s.cids.length % n
  phase : s.q.phase = lapBit n s.cids.length
  cids : ∀ (i : Nat) (cid : BitVec 16), s.cids[i]? = some cid → cid = cidAt n (i + 1)

section Cid

variable {n : Nat} {s s' : CidSys}

/-- The tail and the phase together count to twice the size. -/
theorem nvmDefaultCid_eq {q : NvmQueue} {c : Nat} (hq : q.qs = n) (ht : q.tail = c % n)
    (hp : q.phase = lapBit n c) : nvmDefaultCid q = cidAt n c := by
  have hmod : c % (2 * n) = c % n + (if lapBit n c then 0 else 1) * n := by
    rw [Nat.mul_comm 2 n, Nat.mod_mul, lapBit]
    rcases Nat.mod_two_eq_zero_or_one (c / n) with h | h
    · simp [h]
    · simp [h]
  rw [nvmDefaultCid, cidAt, hq, ht, hp, hmod]

theorem CidInv.enqueue (h : CidInv n s) {slot : Nat} {q : NvmQueue}
    (he : nvmSqEnqueue s.q = some (slot, q)) : CidInv n ⟨q, s.cids ++ [nvmDefaultCid q]⟩ := by
  obtain ⟨hr, hqs, -⟩ := h.range.enqueue he
  obtain ⟨-, hq⟩ := nvmSqEnqueue_some h.range he
  have hlt := h.range.tail_lt
  have htail : q.tail = (s.cids.length + 1) % n := by
    rw [hq, h.qs, h.tail]
    rw [h.qs] at hlt
    exact ringNext_mod (by omega) _
  have hphase : q.phase = lapBit n (s.cids.length + 1) := by
    have hwrap : s.q.tail + 1 = s.q.qs ↔ (s.cids.length + 1) % n = 0 := by
      rw [← htail, hq]
      simp only [ringNext]
      split <;> omega
    rw [lapBit_succ, ← h.phase, hq]
    simp only [hwrap]
  have hcid := nvmDefaultCid_eq (hqs.trans h.qs) htail hphase
  refine ⟨hr, hqs.trans h.qs, by rw [hq]; exact h.db, by simpa using htail, by simpa using hphase, ?_⟩
  exact forall_snoc h.cids hcid

theorem nvmSqUpdate_eq {q : NvmQueue} (h : q.InRange) (hdb : q.db ≠ none) :
    nvmSqUpdate q = { q with head := ringNext q.qs q.head } := by
  have hle := h.qs_le
  have hlt := h.head_lt
  simp only [nvmSqUpdate, if_neg hdb, u32_of_lt (by omega : q.head + 1 < 2 ^ 32), ringNext]
  split <;> rfl

theorem CidInv.update (h : CidInv n s) : CidInv n { s with q := nvmSqUpdate s.q } := by
  rw [nvmSqUpdate_eq h.range h.db]
  refine ⟨⟨h.range.qs_ge, h.range.qs_le, ?_, h.range.tail_lt⟩, h.qs, h.db, h.tail, h.phase, h.cids⟩
  have := h.range.head_lt
  simp only [ringNext]
  split <;> omega

theorem CidInv.step {a : SqCall} (h : CidInv n s) (hs : s.step a = some s') : CidInv n s' := by
  cases a with
  | enqueue =>
    simp only [CidSys.step] at hs
    split at hs
    · cases hs
      exact h
    · rename_i he
      cases hs
      exact h.enqueue he
  | update =>
    cases hs
    exact h.update

theorem CidInv.create {ctrl : NvmCtrl} {no qs vaddr : Nat} {loc : Bool} {ioaddr : BitVec 64}
    {q : NvmQueue} (hq : nvmQueueClear ctrl false no qs loc vaddr ioaddr = .ok q) :
    CidInv qs ⟨q, []⟩ := by
  obtain ⟨hr, hqs, -, ht, hp, hdb⟩ := nvmQueueClear_range hq
  refine ⟨hr, hqs, hdb, ?_, ?_, ?_⟩
  · rw [ht]
    rfl
  · rw [hp]
    exact (lapBit_zero qs).symm
  · intro i cid hi
    simp at hi

/-- One command and its retirement, on a queue with nothing outstanding. -/
theorem CidInv.pair (h : CidInv n s) (hempty : s.q.head = s.q.tail) :
    ∃ tr s', Run CidSys.step s tr s' ∧ CidInv n s' ∧ s'.q.head = s'.q.tail ∧
      s'.cids.length = s.cids.length + 1 := by
  have hge := h.range.qs_ge
  have hsome : nvmSqEnqueue s.q ≠ none := by
    rw [Ne, nvmSqEnqueue_none_iff h.range, hempty, if_pos le_rfl, Nat.sub_self, Nat.zero_mod]
    omega
  obtain ⟨⟨slot, q⟩, he⟩ := Option.ne_none_iff_exists'.mp hsome
  have hi := h.enqueue he
  have h1 : s.step .enqueue = some ⟨q, s.cids ++ [nvmDefaultCid q]⟩ := by simp only [CidSys.step, he]
  refine ⟨_, _, .cons h1 (.single (l := .update) rfl), hi.update, ?_, by simp⟩
  obtain ⟨-, hq⟩ := nvmSqEnqueue_some h.range he
  rw [nvmSqUpdate_eq hi.range hi.db]
  simp only [hq, hempty]

/-- A run with any number of commands. -/
theorem CidInv.commands (h : CidInv n s) (hempty : s.q.head = s.q.tail) (k : Nat) :
    ∃ tr s', Run CidSys.step s tr s' ∧ CidInv n s' ∧ s'.q.head = s'.q.tail ∧
      s'.cids.length = s.cids.length + k := by
  induction k with
  | zero => exact ⟨[], s, .refl, h, hempty, rfl⟩
  | succ k ih =>
    obtain ⟨tr, s₁, hr, hi, he, hl⟩ := ih
    obtain ⟨tr', s₂, hr', hi', he', hl'⟩ := hi.pair he
    exact ⟨tr ++ tr', s₂, hr.trans hr', hi', he', by omega⟩

end Cid

/-- Of two commands fewer than `n - 1` apart no identifier is the other's, when twice the size fits 16
bits or the size is one of the two largest. -/
theorem cidAt_ne {n a b : Nat} (hn : n ≤ 32768 ∨ 65535 ≤ n) (hle : n ≤ 65536) (hab : a < b)
    (hd : b < a + (n - 1)) : cidAt n a ≠ cidAt n b := by
  intro he
  have hmod : a % (2 * n) % 65536 = b % (2 * n) % 65536 := by
    simpa [cidAt] using congrArg BitVec.toNat he
  have hpos : 0 < 2 * n := by omega
  have ha := Nat.mod_lt a hpos
  have hb := Nat.mod_lt b hpos
  -- the residues of `a` and `b` differ by their distance, or by what it lacks to a full turn
  have hturn : b % (2 * n) = a % (2 * n) + (b - a) ∨
      b % (2 * n) + 2 * n = a % (2 * n) + (b - a) := by
    have hsum : b % (2 * n) = (a % (2 * n) + (b - a)) % (2 * n) := by
      rw [Nat.mod_add_mod, Nat.add_sub_cancel' hab.le]
    by_cases hlt : a % (2 * n) + (b - a) < 2 * n
    · exact .inl (by rw [hsum, Nat.mod_eq_of_lt hlt])
    · right
      rw [hsum, Nat.mod_eq_sub_mod (by omega), Nat.mod_eq_of_lt (by omega)]
      omega
  omega

/-- Any `n - 1` consecutive commands have distinct identifiers. -/
def WindowsDistinct (n : Nat) (cids : List (BitVec 16)) : Prop :=
  ∀ (i j : Nat) (c d : BitVec 16), i < j → j < i + (n - 1) → cids[i]? = some c → cids[j]? = some d →
    c ≠ d

/-- Two commands of a long enough run share the identifier 0: number `2^16` and number `2 * n`. -/
theorem CidInv.collision {n : Nat} {s : CidSys} (h : CidInv n s) (hlo : 32768 < n) (hhi : n < 65535)
    (hlen : 2 * n ≤ s.cids.length) : ¬ WindowsDistinct n s.cids := by
  intro hw
  have hi : 65535 < s.cids.length := by omega
  have hj : 2 * n - 1 < s.cids.length := by omega
  have h1 := h.cids 65535 _ (List.getElem?_eq_getElem hi)
  have h2 := h.cids (2 * n - 1) _ (List.getElem?_eq_getElem hj)
  refine hw 65535 (2 * n - 1) _ _ (by omega) (by omega) (List.getElem?_eq_getElem hi)
    (List.getElem?_eq_getElem hj) ?_
  rw [h1, h2, cidAt, cidAt, Nat.sub_add_cancel (by omega), Nat.mod_self,
    Nat.mod_eq_of_lt (by omega)]
  decide

/-- A queue of any size that `nvm_queue_clear` accepts: in every run of enqueues and updates, any
`qs - 1` consecutive commands have distinct identifiers exactly when the size is at most `2^15` or at
least `2^16 - 1`. -/
theorem cids_distinct {ctrl : NvmCtrl} {no qs vaddr : Nat} {loc : Bool} {ioaddr : BitVec 64}
    {q : NvmQueue} (hq : nvmQueueClear ctrl false no qs loc vaddr ioaddr = .ok q) :
    (∀ tr s, Run CidSys.step ⟨q, []⟩ tr s → WindowsDistinct qs s.cids) ↔
      qs ≤ 32768 ∨ 65535 ≤ qs := by
  have h0 := CidInv.create hq
  obtain ⟨hr, hqs, hhead, htail, -, -⟩ := nvmQueueClear_range hq
  constructor
  · intro hall
    by_contra hn
    obtain ⟨tr, s, hrun, hi, -, hlen⟩ := h0.commands (hhead.trans htail.symm) (2 * qs)
    exact hi.collision (by omega) (by omega) (by simp [hlen]) (hall tr s hrun)
  · intro hn tr s hrun i j c d hij hd hc hd'
    have hi : CidInv qs s := Run.inv_all (CidInv qs) (fun _ _ _ h hs => h.step hs) hrun h0
    have hle : qs ≤ 65536 := hqs ▸ hr.qs_le
    rw [hi.cids i c hc, hi.cids j d hd']
    exact cidAt_ne hn hle (by omega) (by omega)

/-- The depth of the I/O queues. -/
theorem cids_distinct_default_depth :
    ∃ q, nvmQueueClear ⟨4096, 0, 500, 1024⟩ false 1 64 true 0 0 = .ok q ∧
      ∀ tr s, Run CidSys.step ⟨q, []⟩ tr s → WindowsDistinct 64 s.cids := by
  have hq : nvmQueueClear ⟨4096, 0, 500, 1024⟩ false 1 64 true 0 0 = .ok _ := rfl
  exact ⟨_, hq, (cids_distinct hq).mpr (.inl (by decide))⟩

/-- With 40000 slots, commands number 65536 and 80000 both have identifier 0. -/
theorem cids_collide :
    ¬ ∀ (ctrl : NvmCtrl) (no qs vaddr : Nat) (loc : Bool) (ioaddr : BitVec 64) (q : NvmQueue),
      nvmQueueClear ctrl false no qs loc vaddr ioaddr = .ok q →
      ∀ tr s, Run CidSys.step ⟨q, []⟩ tr s → WindowsDistinct qs s.cids := by
  intro h
  have hq : nvmQueueClear ⟨4096, 0, 500, 65536⟩ false 1 40000 true 0 0 =
      .ok ⟨1, 64, 40000, 0, 0, 0, true, true, some (sqDbl 1 0), 0, 0⟩ := rfl
  obtain ⟨tr, s, hrun, hi, -, hlen⟩ := (CidInv.create hq).commands rfl 80000
  exact hi.collision (by decide) (by decide) (by simp [hlen]) (h _ _ _ _ _ _ _ hq tr s hrun)

end Nvm
end UGDS
