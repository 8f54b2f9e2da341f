import UGDS.Nvm.Ctrl
import UGDS.Nvm.Queue

/-!
# UGDS.Nvm.Doorbell

Where the doorbell registers are (`SQ_DBL` and `CQ_DBL`, `internal/regs.h`).

`nvm_ctrl_init` maps `NVM_CTRL_MEM_MINSIZE` bytes of the controller's registers, of which the upper half
is for doorbells. `nvm_queue_clear` computes the address of a doorbell from the queue's number and the
controller's stride, in `int` and without looking at the size of what is mapped.

* `dblOffset_eq`: the computation has a value when its product does not overflow.
* `doorbells_mapped`: which doorbells are in the mapped registers, and that these do not overlap.
* `doorbell_not_mapped`: the completion queue of pair 16 with a stride of 128 bytes.
-/

namespace UGDS
namespace Nvm

/-- `NVM_CTRL_MEM_MINSIZE`, the size of the mapping. -/
def NVM_CTRL_MEM_MINSIZE : Nat := 0x2000

/-- A nonnegative value computed in `int`; `none` is a signed overflow. -/
def int32 (n : Nat) : Option Nat := if n < 2 ^ 31 then some n else none

/-- The offset from `mm_ptr` that `SQ_DBL` and `CQ_DBL` compute. `y` and `dstrd` are promoted to
`int`. -/
def dblOffset (cq : Bool) (y dstrd : Nat) : Option Nat := do
  let twice ← int32 (2 * y)
  let number ← int32 (twice + if cq then 1 else 0)
  let stride ← int32 (4 <<< dstrd)
  let offset ← int32 (number * stride)
  return 0x1000 + offset

/-- The number of a doorbell among all doorbells. -/
def dblNumber (cq : Bool) (y : Nat) : Nat := 2 * y + if cq then 1 else 0

/-- A queue's doorbell is computed without overflow and lies in the mapped registers. -/
def DoorbellMapped (ctrl : NvmCtrl) (cq : Bool) (q : NvmQueue) : Prop :=
  ∃ off, dblOffset cq q.no ctrl.dstrd = some off ∧ q.db = some off ∧ off + 4 ≤ NVM_CTRL_MEM_MINSIZE

/-- The doorbells of two queues are different registers. -/
def DoorbellsApart (q q' : NvmQueue) : Prop :=
  ∀ off off', q.db = some off → q'.db = some off' → off + 4 ≤ off' ∨ off' + 4 ≤ off

/-- There is room for the doorbell between `mm_ptr + 0x1000` and the end of the mapping. -/
def HasDoorbell (ctrl : NvmCtrl) (cq : Bool) (y : Nat) : Prop :=
  0x1000 + dblNumber cq y * (4 <<< ctrl.dstrd) + 4 ≤ NVM_CTRL_MEM_MINSIZE

instance (ctrl : NvmCtrl) (cq : Bool) (y : Nat) : Decidable (HasDoorbell ctrl cq y) :=
  inferInstanceAs (Decidable (_ ≤ _))

theorem int32_bind {α : Type} (n : Nat) (f : Nat → Option α) :
    (int32 n).bind f = if n < 2 ^ 31 then f n else none := by
  unfold int32
  split <;> rfl

/-- The intermediate values are smaller than the product, so only the product can overflow. -/
theorem dblOffset_eq (cq : Bool) {y dstrd : Nat} (hy : y < 2 ^ 16) (hd : dstrd < 2 ^ 4) :
    dblOffset cq y dstrd =
      if dblNumber cq y * (4 <<< dstrd) < 2 ^ 31 then
        some (0x1000 + dblNumber cq y * (4 <<< dstrd))
      else none := by
  have hstride : 4 <<< dstrd < 2 ^ 31 := by
    rw [Nat.shiftLeft_eq]
    have : 2 ^ dstrd ≤ 2 ^ 15 := Nat.pow_le_pow_right (by decide) (by omega)
    omega
  have hnumber : 2 * y + (if cq then 1 else 0) < 2 ^ 31 := by
    split <;> omega
  have htwice : 2 * y < 2 ^ 31 := by omega
  simp only [dblOffset, Option.bind_eq_bind, int32_bind, if_pos htwice, if_pos hnumber,
    if_pos hstride]
  rfl

/-- The offset that `nvm_queue_clear` is modelled with: by `dblOffset_eq` what the macros compute, unless
their product overflows. -/
theorem dbl_eq (cq : Bool) (y dstrd : Nat) :
    (if cq then cqDbl y dstrd else sqDbl y dstrd) = 0x1000 + dblNumber cq y * (4 <<< dstrd) := by
  cases cq <;> rfl

theorem capDstrd_lt (cap : BitVec 64) : capDstrd cap < 2 ^ 4 := Nat.mod_lt _ (by decide)

section Queues

variable {ctrl : NvmCtrl} {cq cq' loc loc' : Bool} {no no' qs qs' v v' : Nat} {a a' : BitVec 64}
  {q q' : NvmQueue}

theorem nvmQueueClear_db (h : nvmQueueClear ctrl cq no qs loc v a = .ok q) :
    q.no = no ∧ q.db = some (0x1000 + dblNumber cq no * (4 <<< ctrl.dstrd)) := by
  obtain ⟨-, rfl⟩ := nvmQueueClear_ok h
  exact ⟨rfl, congrArg some (dbl_eq cq no ctrl.dstrd)⟩

/-- A doorbell that has room is computed without overflow. -/
theorem doorbellMapped_iff (hd : ctrl.dstrd < 2 ^ 4) (hno : no < 2 ^ 16)
    (h : nvmQueueClear ctrl cq no qs loc v a = .ok q) :
    DoorbellMapped ctrl cq q ↔ HasDoorbell ctrl cq no := by
  obtain ⟨hq, hdb⟩ := nvmQueueClear_db h
  unfold DoorbellMapped HasDoorbell NVM_CTRL_MEM_MINSIZE
  rw [hq, hdb, dblOffset_eq cq hno hd]
  constructor
  · rintro ⟨off, -, ho, hle⟩
    rw [Option.some.inj ho]
    exact hle
  · intro hle
    exact ⟨_, if_pos (by omega), rfl, hle⟩

/-- Doorbells have different numbers. -/
theorem dblNumber_inj (h : dblNumber cq no = dblNumber cq' no') : cq = cq' ∧ no = no' := by
  unfold dblNumber at h
  cases cq <;> cases cq' <;> simp at h ⊢ <;> omega

/-- Two doorbells are at least one stride apart. -/
theorem doorbells_apart (h : nvmQueueClear ctrl cq no qs loc v a = .ok q)
    (h' : nvmQueueClear ctrl cq' no' qs' loc' v' a' = .ok q') (hne : (cq, no) ≠ (cq', no')) :
    DoorbellsApart q q' := by
  obtain ⟨-, hdb⟩ := nvmQueueClear_db h
  obtain ⟨-, hdb'⟩ := nvmQueueClear_db h'
  intro off off' ho ho'
  rw [hdb] at ho
  rw [hdb'] at ho'
  cases ho
  cases ho'
  have hstride : 4 ≤ 4 <<< ctrl.dstrd := by
    rw [Nat.shiftLeft_eq]
    exact Nat.le_mul_of_pos_right 4 (Nat.two_pow_pos _)
  have hnum : dblNumber cq no ≠ dblNumber cq' no' := fun he => by
    obtain ⟨rfl, rfl⟩ := dblNumber_inj he
    exact hne rfl
  have hstep {m n : Nat} (hlt : m < n) :
      0x1000 + m * (4 <<< ctrl.dstrd) + 4 ≤ 0x1000 + n * (4 <<< ctrl.dstrd) := by
    have := Nat.mul_le_mul_right (4 <<< ctrl.dstrd) (Nat.succ_le_of_lt hlt)
    rw [Nat.succ_mul] at this
    omega
  rcases Nat.lt_or_gt_of_ne hnum with hlt | hlt
  · exact .inl (hstep hlt)
  · exact .inr (hstep hlt)

/-- For every controller that `_nvm_ctrl_init` accepts and any two queues that `nvm_queue_clear` sets
up for it: their doorbells are computed without overflow, lie in the mapped registers and, if the
queues differ in number or kind, do not overlap, exactly if both have room in the mapping. -/
theorem doorbells_mapped {alloc : Bool} {hostPage : Nat} {cap : BitVec 64}
    (hc : nvmCtrlInit alloc hostPage cap = .ok ctrl) (hno : no < 2 ^ 16) (hno' : no' < 2 ^ 16)
    (h : nvmQueueClear ctrl cq no qs loc v a = .ok q)
    (h' : nvmQueueClear ctrl cq' no' qs' loc' v' a' = .ok q') :
    (DoorbellMapped ctrl cq q ∧ DoorbellMapped ctrl cq' q' ∧
        ((cq, no) ≠ (cq', no') → DoorbellsApart q q')) ↔
      HasDoorbell ctrl cq no ∧ HasDoorbell ctrl cq' no' := by
  have hd : ctrl.dstrd < 2 ^ 4 := by
    rw [(nvmCtrlInit_ok hc).2]
    exact capDstrd_lt cap
  rw [doorbellMapped_iff hd hno h, doorbellMapped_iff hd hno' h', ← and_assoc]
  exact and_iff_left (doorbells_apart h h')

end Queues

/-- A controller with a stride of 4 bytes: a completion queue 1 and a submission queue 2. -/
theorem doorbells_mapped_two :
    ∃ ctrl q q', nvmCtrlInit true 4096 0x3ff#64 = .ok ctrl ∧
      nvmQueueClear ctrl true 1 64 true 0 0 = .ok q ∧
      nvmQueueClear ctrl false 2 64 true 0 0 = .ok q' ∧ DoorbellMapped ctrl true q ∧
      DoorbellMapped ctrl false q' ∧ DoorbellsApart q q' := by
  have hc : nvmCtrlInit true 4096 0x3ff#64 = .ok ⟨4096, 0, 0, 1024⟩ := by decide +kernel
  have hq : nvmQueueClear ⟨4096, 0, 0, 1024⟩ true 1 64 true 0 0 =
      .ok ⟨1, 16, 64, 0, 0, 0, true, true, some (cqDbl 1 0), 0, 0⟩ := rfl
  have hq' : nvmQueueClear ⟨4096, 0, 0, 1024⟩ false 2 64 true 0 0 =
      .ok ⟨2, 64, 64, 0, 0, 0, true, true, some (sqDbl 2 0), 0, 0⟩ := rfl
  obtain ⟨h1, h2, h3⟩ := (doorbells_mapped hc (by decide) (by decide) hq hq').mpr
    ⟨by decide, by decide⟩
  exact ⟨_, _, _, hc, hq, hq', h1, h2, h3 (by decide)⟩

/-- A stride of 128 bytes: the doorbell of completion queue 16 is 128 bytes behind the mapping. -/
theorem doorbell_not_mapped :
    ¬ ∀ (alloc : Bool) (hostPage : Nat) (cap : BitVec 64) (ctrl : NvmCtrl),
      nvmCtrlInit alloc hostPage cap = .ok ctrl →
      ∀ (cq cq' loc loc' : Bool) (no no' qs qs' v v' : Nat) (a a' : BitVec 64) (q q' : NvmQueue),
        no < 2 ^ 16 → no' < 2 ^ 16 → nvmQueueClear ctrl cq no qs loc v a = .ok q →
        nvmQueueClear ctrl cq' no' qs' loc' v' a' = .ok q' →
        DoorbellMapped ctrl cq q ∧ DoorbellMapped ctrl cq' q' ∧
          ((cq, no) ≠ (cq', no') → DoorbellsApart q q') := by
  intro hall
  have hc : nvmCtrlInit true 4096 0x5000003ff#64 = .ok ⟨4096, 5, 0, 1024⟩ := by decide +kernel
  have hq : nvmQueueClear ⟨4096, 5, 0, 1024⟩ true 16 64 true 0 0 =
      .ok ⟨16, 16, 64, 0, 0, 0, true, true, some 0x2080, 0, 0⟩ := rfl
  obtain ⟨⟨off, -, hoff, hle⟩, -⟩ := hall true 4096 0x5000003ff#64 _ hc true true true true 16 16 64
    64 0 0 0 0 _ _ (by decide) (by decide) hq hq
  cases hoff
  exact absurd hle (by decide)

end Nvm
end UGDS
