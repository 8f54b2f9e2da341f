import UGDS.Io.Independent
import UGDS.Lib.Deal

/-!
# UGDS.Io.RoundRobin

How `rr_counter` spreads the calls of a handle over its queue pairs.

Only a call that passes the checks and finds its buffer takes a number, in one atomic
`fetch_add`; which pair it gets depends on nothing else. The counter has 32 bits, so after
2^32 calls it starts again at 0, in the middle of a round unless the number of pairs divides 2^32.

* `Threads.Dealt`: the counter and the load of each pair are those of the numbers given out.
* `io_round_robin`: in every interleaving, the loads of two pairs stay together.
-/

namespace UGDS

open Nvm Lib

def IoCall.admitted (hs : HandleState) (c : IoCall) : Bool := (ioAdmit hs c).isOk

namespace Threads

/-- The calls of a run that took a number. -/
def admitted (hs : HandleState) (s : Threads) : List IoThread :=
  s.calls.filter fun c => c.io.admitted hs

/-- The calls that were given queue pair `i`, finished or not. -/
def load (hs : HandleState) (s : Threads) (i : Nat) : Nat :=
  (s.admitted hs).countP fun c => c.qp == i

/-- The pair of the `k`th call that is admitted. -/
def turn (hs : HandleState) (k : Nat) : Nat := u32 (hs.rrCounter + k) % hs.numQps

/-- `hs₀` is the handle at the start of the run. -/
structure Dealt (hs₀ : HandleState) (s : Threads) : Prop where
  static : s.hs = { hs₀ with rrCounter := s.hs.rrCounter, qps := s.hs.qps }
  counter : s.hs.rrCounter = u32 (hs₀.rrCounter + (s.admitted hs₀).length)
  inside : ∀ c ∈ s.admitted hs₀, c.qp < hs₀.numQps
  load : ∀ i, s.load hs₀ i = (s.admitted hs₀).length.count (fun k => turn hs₀ k = i)

section Step

variable {hs₀ : HandleState} {s s' : Threads}

theorem Dealt.init (h : hs₀.rrCounter < 2 ^ 32) : Dealt hs₀ (init hs₀) := by
  refine ⟨rfl, ?_, by simp [admitted, Threads.init], by simp [Threads.load, admitted, Threads.init]⟩
  show hs₀.rrCounter = u32 (hs₀.rrCounter + 0)
  rw [u32, Nat.add_zero, Nat.mod_eq_of_lt h]

theorem Dealt.admit (h : Dealt hs₀ s) (io : IoCall) : ioAdmit s.hs io = ioAdmit hs₀ io := by
  rw [h.static]
  rfl

/-- A call keeps its arguments and its pair through all its steps. -/
theorem admitted_set {j : Nat} {c c' : IoThread} (hcalls : s'.calls = s.calls.set j c')
    (hc : s.calls[j]? = some c) (hio : c'.io = c.io) (hqp : c'.qp = c.qp) :
    (s'.admitted hs₀).map IoThread.qp = (s.admitted hs₀).map IoThread.qp := by
  unfold admitted
  rw [hcalls]
  obtain ⟨hlt, rfl⟩ := List.getElem?_eq_some_iff.mp hc
  rw [List.set_eq_take_append_cons_drop, if_pos hlt]
  conv_rhs => rw [← List.take_append_drop j s.calls, List.drop_eq_getElem_cons hlt]
  simp only [List.filter_append, List.filter_cons, hio]
  split <;> simp [hqp]

theorem load_eq (s : Threads) (i : Nat) :
    s.load hs₀ i = ((s.admitted hs₀).map IoThread.qp).countP (· == i) := by
  rw [load, List.countP_map]
  rfl

/-- A step in which nobody takes a number. -/
theorem Dealt.keep (h : Dealt hs₀ s)
    (hmap : (s'.admitted hs₀).map IoThread.qp = (s.admitted hs₀).map IoThread.qp)
    (hstatic : s'.hs = { hs₀ with rrCounter := s'.hs.rrCounter, qps := s'.hs.qps })
    (hrr : s'.hs.rrCounter = s.hs.rrCounter) : Dealt hs₀ s' := by
  have hlen : (s'.admitted hs₀).length = (s.admitted hs₀).length := by
    simpa using congrArg List.length hmap
  refine ⟨hstatic, by rw [hrr, h.counter, hlen], ?_, ?_⟩
  · intro c hc
    have hmem : c.qp ∈ (s.admitted hs₀).map IoThread.qp := hmap ▸ List.mem_map_of_mem hc
    obtain ⟨c₀, hc₀, he⟩ := List.mem_map.mp hmem
    rw [← he]
    exact h.inside c₀ hc₀
  · intro i
    rw [load_eq, hmap, ← load_eq, h.load, hlen]

theorem step_dealt_enter (hn : hs₀.numQps ≤ 2 ^ 16) (h : Dealt hs₀ s) {io : IoCall}
    (hs : s.step (.enter io) = some s') : Dealt hs₀ s' := by
  simp only [step] at hs
  split at hs
  · rename_i e he
    cases hs
    have hno : io.admitted hs₀ = false := by
      rw [IoCall.admitted, ← h.admit, he]
      rfl
    exact h.keep (by simp [admitted, List.filter_append, hno]) h.static rfl
  · rename_i dma fly start he
    split at hs
    · cases hs
    rename_i hpos
    cases hs
    have hyes : io.admitted hs₀ = true := by
      rw [IoCall.admitted, ← h.admit, he]
      rfl
    have hnum : s.hs.numQps = hs₀.numQps := by rw [h.static]
    have hlt : s.hs.rrCounter % s.hs.numQps < s.hs.numQps := Nat.mod_lt _ (by omega)
    -- `qp_idx` is a `uint16_t`, and the number of pairs fits in one
    have hqp : s.hs.qpIdx = turn hs₀ (s.admitted hs₀).length := by
      rw [HandleState.qpIdx, u16, Nat.mod_eq_of_lt (by omega), h.counter, hnum, turn]
    refine ⟨?_, ?_, ?_, ?_⟩
    · conv_lhs => rw [h.static]
    · simp only [admitted, List.filter_append, List.filter_cons, hyes, if_true, List.filter_nil,
        List.length_append, List.length_singleton]
      rw [h.counter, admitted, u32, u32, u32, Nat.mod_add_mod, Nat.add_assoc]
    · intro c hc
      simp only [admitted, List.filter_append, List.filter_cons, hyes, if_true, List.filter_nil,
        List.mem_append, List.mem_singleton] at hc
      rcases hc with hc | rfl
      · exact h.inside c hc
      · rw [hqp, turn]
        exact Nat.mod_lt _ (by omega)
    · intro i
      have hload := h.load i
      simp only [Threads.load, admitted, List.filter_append, List.filter_cons, hyes, if_true,
        List.filter_nil, List.length_append, List.length_singleton, List.countP_append,
        List.countP_cons, List.countP_nil, Nat.count_succ] at hload ⊢
      rw [hload, hqp]
      simp [admitted]

theorem step_dealt (hn : hs₀.numQps ≤ 2 ^ 16) (h : Dealt hs₀ s) {m : Move}
    (hs : s.step m = some s') : Dealt hs₀ s' := by
  cases m with
  | enter io => exact step_dealt_enter hn h hs
  | lock j =>
    obtain ⟨c, dma, start, hc, -, -, rfl⟩ := step_lock hs
    refine h.keep ?_ h.static rfl
    exact admitted_set rfl hc rfl rfl
  | advance j =>
    obtain ⟨c, dma, l, q, t, hc, -, -, -, rfl⟩ := step_advance hs
    refine h.keep ?_ ?_ rfl
    · exact admitted_set rfl hc rfl rfl
    · show setPair s.hs c.qp q t.qp = _
      conv_lhs => rw [setPair, h.static]
      rfl
  | device i a =>
    obtain ⟨q, -, rfl⟩ := step_device hs
    refine h.keep rfl ?_ rfl
    show setPair s.hs i q (q.pair.devStep a) = _
    conv_lhs => rw [setPair, h.static]
    rfl

end Step

end Threads

/-- However the calls interleave, and whatever they return, each call that is admitted is on one of
the pairs, and two pairs differ by at most one call; when the number of pairs does not divide 2^32,
by one more for each time that the counter has wrapped. -/
theorem io_round_robin (hs₀ : HandleState) (hn : hs₀.numQps ≤ 2 ^ 16) (hrr : hs₀.rrCounter < 2 ^ 32)
    (tr : List (Threads × Threads.Move)) (s : Threads)
    (hr : Run Threads.step (Threads.init hs₀) tr s) :
    (∀ c ∈ s.admitted hs₀, c.qp < hs₀.numQps) ∧
      ∀ i j, i < hs₀.numQps → j < hs₀.numQps →
        s.load hs₀ i ≤ s.load hs₀ j + 1 +
          dealtSkew (2 ^ 32) hs₀.numQps (hs₀.rrCounter + (s.admitted hs₀).length) := by
  have h : Threads.Dealt hs₀ s := hr.inv_all (Threads.Dealt hs₀)
    (fun s m s' hd hs => Threads.step_dealt hn hd hs) (Threads.Dealt.init hrr)
  refine ⟨h.inside, fun i j hi hj => ?_⟩
  rw [h.load, h.load]
  exact dealt_balanced hi hj hrr _

/-- Three pairs, and a counter about to wrap. -/
def threePairs : HandleState :=
  { twoPairs with
    numQps := 3
    qps := ⟨sampleQp, none, none, none⟩ :: twoPairs.qps
    rrCounter := 2 ^ 32 - 1 }

/-- The numbers 2^32 - 1 and 0 both go to pair 0, and the bound is met. -/
theorem io_round_robin_wrap :
    ∃ tr s, Run Threads.step (Threads.init threePairs) tr s ∧
      s.load threePairs 0 = 2 ∧ s.load threePairs 2 = 0 ∧
      s.load threePairs 0 ≤ s.load threePairs 2 + 1 + dealtSkew (2 ^ 32) 3 (2 ^ 32 - 1 + 2) := by
  obtain ⟨tr, s, hr, -, hobs⟩ := follow_run Threads.step (fun _ _ => true)
    (Threads.init threePairs) [.enter sampleCall, .enter sampleCall]
    (fun s => decide (s.load threePairs 0 = 2 ∧ s.load threePairs 2 = 0 ∧
      (s.admitted threePairs).length = 2)) (by decide +kernel)
  obtain ⟨h0, h2, hlen⟩ := of_decide_eq_true hobs
  have h := (io_round_robin threePairs (by decide) (by decide) tr s hr).2 0 2 (by decide) (by decide)
  rw [hlen] at h
  exact ⟨tr, s, hr, h0, h2, h⟩

end UGDS
