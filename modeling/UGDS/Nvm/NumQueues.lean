import UGDS.Nvm.Admin

/-!
# UGDS.Nvm.NumQueues

The negotiation of the number of queues (`nvm_admin_request_num_queues` and
`nvm_admin_get_num_queues`, `admin.cpp`).

A request has the number of completion queues in the upper half of DWORD11 and the number of
submission queues in the lower half, both 0's based. The answer in DWORD0 is read the other way
round by both functions, and each count is put into 16 bits after 1 has been added.

* `numQueues_decode`: what comes out for an answer in the layout of the request.
* `num_queues_exact`: a grant is what the caller gets exactly if its two counts are the same.
* `num_queues_swapped`: one completion queue and two submission queues.
-/

namespace UGDS
namespace Nvm

def NVM_ADMIN_GET_FEATURES : BitVec 8 := 0x0a#8

/-- `admin_current_num_queues` without `set`. -/
def adminGetNumQueues : NvmCmd :=
  ((nvmCmdDataPtr (adminHeader NVM_ADMIN_GET_FEATURES 0) 0 0).set 10 0x07#32).set 11 0#32

/-- `nvm_admin_get_num_queues`: the result, `n_cqs` and `n_sqs`. These are left alone when the
command fails. -/
def nvmAdminGetNumQueues (dev : Device) (timeout : Nat) (a : Admin) (nCqs nSqs : Nat) :
    Int × Nat × Nat × Admin :=
  let x := nvmRawRpc dev timeout a adminGetNumQueues
  if x.1 ≠ 0 then (x.1, nCqs, nSqs, x.2.2)
  else
    let dw0 := (x.2.1.dword 0).toNat
    (0, u16 (dw0 % 2 ^ 16 + 1), u16 (dw0 / 2 ^ 16 + 1), x.2.2)

/-- Two counts in the layout of the request's DWORD11. -/
def numQueuesDword (nCqs nSqs : Nat) : BitVec 32 :=
  (BitVec.ofNat 32 (nCqs - 1) <<< 16) ||| BitVec.ofNat 32 (nSqs - 1)

/-- The command `cmd` is answered by a completion with status 0 and `v` in DWORD0. -/
def Reports (dev : Device) (timeout : Nat) (a : Admin) (cmd : NvmCmd) (v : BitVec 32) : Prop :=
  (nvmRawRpc dev timeout a cmd).1 = 0 ∧ (nvmRawRpc dev timeout a cmd).2.1.dword 0 = v

/-- A call has returned 0 and these two counts. -/
def Yields (r : Int × Nat × Nat × Admin) (nCqs nSqs : Nat) : Prop :=
  r.1 = 0 ∧ r.2.1 = nCqs ∧ r.2.2.1 = nSqs

section Decode

variable {c s : Nat}

theorem numQueuesDword_toNat (hc : c ≤ 65536) (hs : s ≤ 65536) :
    (numQueuesDword c s).toNat = (c - 1) * 2 ^ 16 + (s - 1) :=
  halves_toNat (by omega) (by omega)

/-- The halves come out in the other order, and 65536 comes out as 0. -/
theorem numQueues_decode (hcs : (1 ≤ c ∧ c ≤ 65536) ∧ 1 ≤ s ∧ s ≤ 65536) :
    let dw0 := (numQueuesDword c s).toNat
    u16 (dw0 % 2 ^ 16 + 1) = u16 s ∧ u16 (dw0 / 2 ^ 16 + 1) = u16 c := by
  simp only [numQueuesDword_toNat hcs.1.2 hcs.2.2, u16]
  omega

theorem swapped_eq_iff (hc : 1 ≤ c) (hc' : c ≤ 65536) :
    (u16 s = c ∧ u16 c = s) ↔ c = s ∧ c ≤ 65535 := by
  simp only [u16]
  omega

end Decode

section Calls

variable {dev : Device} {timeout : Nat} {a : Admin}

/-- The answer to a request has the counts `c` and `s` in the layout of the request. -/
theorem requestNumQueues_reports {nCqs nSqs c s : Nat} (hc : 1 ≤ nCqs) (hs : 1 ≤ nSqs)
    (hcs : (1 ≤ c ∧ c ≤ 65536) ∧ 1 ≤ s ∧ s ≤ 65536)
    (h : Reports dev timeout a (adminSetNumQueues nCqs nSqs) (numQueuesDword c s)) (m n : Nat) :
    Yields (nvmAdminRequestNumQueues dev timeout a nCqs nSqs) m n ↔ u16 s = m ∧ u16 c = n := by
  have hne : ¬(nCqs = 0 ∨ nSqs = 0) := by omega
  obtain ⟨hd1, hd2⟩ := numQueues_decode hcs
  simp only [Yields, nvmAdminRequestNumQueues, if_neg hne, h.1, ne_eq, not_true_eq_false, if_false,
    h.2, hd1, hd2, true_and]

theorem getNumQueues_reports {c s : Nat} (hcs : (1 ≤ c ∧ c ≤ 65536) ∧ 1 ≤ s ∧ s ≤ 65536)
    (h : Reports dev timeout a adminGetNumQueues (numQueuesDword c s)) (m n m' n' : Nat) :
    Yields (nvmAdminGetNumQueues dev timeout a m n) m' n' ↔ u16 s = m' ∧ u16 c = n' := by
  obtain ⟨hd1, hd2⟩ := numQueues_decode hcs
  simp only [Yields, nvmAdminGetNumQueues, h.1, ne_eq, not_true_eq_false, if_false, h.2, hd1, hd2,
    true_and]

end Calls

/-- A request for 1 to 65535 queues of each kind, with any controller and in any state of the admin
queue pair. If the answer is the DWORD11 of the request, and so is the answer to a
`nvm_admin_get_num_queues` that follows, then both calls return the counts asked for exactly if
these are the same. And of any grant of `c` completion and `s` submission queues in that layout,
both calls return `c` and `s` exactly if they are the same and fit 16 bits. -/
theorem num_queues_exact (dev : Device) (timeout : Nat) (a : Admin) {nCqs nSqs : Nat}
    (hc : 1 ≤ nCqs) (hc' : nCqs ≤ 65535) (hs : 1 ≤ nSqs) (hs' : nSqs ≤ 65535) (m n : Nat) :
    let cmd := adminSetNumQueues nCqs nSqs
    let x := nvmAdminRequestNumQueues dev timeout a nCqs nSqs
    let y := nvmAdminGetNumQueues dev timeout x.2.2.2 m n
    (Reports dev timeout a cmd (cmd.dword 11) →
        Reports dev timeout x.2.2.2 adminGetNumQueues (cmd.dword 11) →
        (Yields x nCqs nSqs ∧ Yields y nCqs nSqs ↔ nCqs = nSqs)) ∧
      ∀ c s, (1 ≤ c ∧ c ≤ 65536) ∧ 1 ≤ s ∧ s ≤ 65536 →
        (Reports dev timeout a cmd (numQueuesDword c s) → (Yields x c s ↔ c = s ∧ c ≤ 65535)) ∧
          ∀ b, Reports dev timeout b adminGetNumQueues (numQueuesDword c s) →
            (Yields (nvmAdminGetNumQueues dev timeout b m n) c s ↔ c = s ∧ c ≤ 65535) := by
  refine ⟨fun hx hy => ?_, fun c s hcs => ⟨fun hx => ?_, fun b hb => ?_⟩⟩
  · have hcs : (1 ≤ nCqs ∧ nCqs ≤ 65536) ∧ 1 ≤ nSqs ∧ nSqs ≤ 65536 := by omega
    have hdw : (adminSetNumQueues nCqs nSqs).dword 11 = numQueuesDword nCqs nSqs := rfl
    rw [hdw] at hx hy
    rw [requestNumQueues_reports hc hs hcs hx, getNumQueues_reports hcs hy, and_self,
      swapped_eq_iff hcs.1.1 hcs.1.2]
    exact and_iff_left_of_imp fun _ => hc'
  · rw [requestNumQueues_reports hc hs hcs hx, swapped_eq_iff hcs.1.1 hcs.1.2]
  · rw [getNumQueues_reports hcs hb, swapped_eq_iff hcs.1.1 hcs.1.2]

/-! ## A controller that grants what it is asked for -/

/-- DWORD11 of the last Set Features command. -/
def lastAsked (cmds : List NvmCmd) : BitVec 32 :=
  match cmds.reverse.find? fun c => c.opcode = NVM_ADMIN_SET_FEATURES with
  | some c => c.dword 11
  | none => 0#32

/-- A controller that completes a command before each poll, with what it was asked for last. -/
def grantingDevice : Device := fun _ qp =>
  [.fetch, .complete 0 ⟨fun i => if i = 0 then lastAsked qp.cmds else 0#32⟩]

/-- An admin queue pair of 64 and 256 entries. -/
def freshAdmin : Admin :=
  ⟨0, .create ⟨0, 64, 64, 0, 0, 0, true, true, some 0x1000, 0x11000, 0x2000#64⟩
    ⟨0, 16, 256, 0, 0, 0, true, true, some 0x1004, 0x10000, 0x1000#64⟩ 0⟩

/-- A request to that controller, and the query after it. -/
def askFor (nCqs nSqs : Nat) : Int × Nat × Nat × Admin :=
  nvmAdminRequestNumQueues grantingDevice 0 freshAdmin nCqs nSqs

def askAgain (nCqs nSqs : Nat) : Int × Nat × Nat × Admin :=
  nvmAdminGetNumQueues grantingDevice 0 (askFor nCqs nSqs).2.2.2 0 0

theorem num_queues_exact_sixteen :
    Yields (askFor 16 16) 16 16 ∧ Yields (askAgain 16 16) 16 16 := by
  refine ((num_queues_exact grantingDevice 0 freshAdmin (by decide : 1 ≤ 16) (by decide)
    (by decide : 1 ≤ 16) (by decide) 0 0).1 ?_ ?_).mpr rfl
  · exact ⟨by decide +kernel, by decide +kernel⟩
  · exact ⟨by decide +kernel, by decide +kernel⟩

/-- One completion queue and two submission queues are asked for and granted; the calls return two
and one. -/
theorem num_queues_swapped :
    ¬ ∀ (dev : Device) (timeout : Nat) (a : Admin) (nCqs nSqs m n : Nat), 1 ≤ nCqs →
      nCqs ≤ 65535 → 1 ≤ nSqs → nSqs ≤ 65535 →
      let cmd := adminSetNumQueues nCqs nSqs
      let x := nvmAdminRequestNumQueues dev timeout a nCqs nSqs
      let y := nvmAdminGetNumQueues dev timeout x.2.2.2 m n
      Reports dev timeout a cmd (cmd.dword 11) →
      Reports dev timeout x.2.2.2 adminGetNumQueues (cmd.dword 11) →
      Yields x nCqs nSqs ∧ Yields y nCqs nSqs := by
  intro h
  have hboth := h grantingDevice 0 freshAdmin 1 2 0 0 (by decide) (by decide) (by decide) (by decide)
    ⟨by decide +kernel, by decide +kernel⟩ ⟨by decide +kernel, by decide +kernel⟩
  exact absurd hboth.1.2.1 (by decide +kernel)

end Nvm
end UGDS
