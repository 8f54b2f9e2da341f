import UGDS.Nvm.Types

/-!
# UGDS.Nvm.Ctrl

Opening and resetting a controller (`_nvm_ctrl_init` and `nvm_raw_ctrl_reset`, `ctrl.cpp`).

`CAP` is the 64-bit capabilities register. The readings of `CSTS.RDY` during a reset are a function
of their number; the writes to `CC`, `AQA`, `ACQ` and `ASQ` are collected in `CtrlRegs`.

* `nvmCtrlInit_ok`: a controller's page size is the host's.
* `nvmCtrlInit_encoded`, `nvmCtrlInit_large`: the page sizes that are accepted.
-/

namespace UGDS
namespace Nvm

/-- `_RB(v, hi, lo)`. -/
def rb (v : BitVec 64) (hi lo : Nat) : Nat := v.toNat / 2 ^ lo % 2 ^ (hi + 1 - lo)

/-- `_WB(v, hi, lo)`. -/
def wb (v hi lo : Nat) : Nat := v % 2 ^ (hi + 1 - lo) * 2 ^ lo

def capMpsMax (cap : BitVec 64) : Nat := rb cap 55 52
def capMpsMin (cap : BitVec 64) : Nat := rb cap 51 48
def capDstrd (cap : BitVec 64) : Nat := rb cap 35 32
def capTo (cap : BitVec 64) : Nat := rb cap 31 24
def capMqes (cap : BitVec 64) : Nat := rb cap 15 0

/-- The loop of `_nvm_b2log`: how often `n` can be halved until it is 0. A `uint32_t` takes at most
32 turns. -/
def halvings : (fuel n : Nat) → Nat
  | 0, _ => 0
  | fuel + 1, n => if n = 0 then 0 else halvings fuel (n / 2) + 1

/-- `_nvm_b2log`; it wraps around for 0. -/
def nvmB2log (n : Nat) : Nat := u32 ((2 ^ 32 - 1) + halvings 32 n)

/-- `encode_page_size`. -/
def encodePageSize (page : Nat) : Nat := nvmB2log (u32 (page / 2 ^ 12))

/-- `_nvm_ctrl_init` as `nvm_ctrl_init` calls it, with `mm_size` equal to `NVM_CTRL_MEM_MINSIZE`.
`alloc` is the allocation of the handle, `hostPage` what `_nvm_host_page_size` returns. -/
def nvmCtrlInit (alloc : Bool) (hostPage : Nat) (cap : BitVec 64) : Except Errno NvmCtrl :=
  let encoded := encodePageSize hostPage % 2 ^ 8
  if !alloc then .error .ENOMEM
  else if hostPage = 0 then .error .ENOMEM
  else if ¬(capMpsMin cap ≤ encoded ∧ encoded ≤ capMpsMax cap) then .error .ERANGE
  else .ok
    { pageSize := hostPage
      dstrd := capDstrd cap
      timeout := capTo cap * 500
      maxQs := capMqes cap + 1 }

theorem nvmCtrlInit_ok {alloc : Bool} {hostPage : Nat} {cap : BitVec 64} {ctrl : NvmCtrl}
    (h : nvmCtrlInit alloc hostPage cap = .ok ctrl) :
    0 < hostPage ∧ ctrl = ⟨hostPage, capDstrd cap, capTo cap * 500, capMqes cap + 1⟩ := by
  simp only [nvmCtrlInit] at h
  split at h
  · cases h
  split at h
  · cases h
  split at h
  · cases h
  · rename_i hp _
    cases h
    exact ⟨Nat.pos_of_ne_zero hp, rfl⟩

/-- Enough halvings are counted. -/
theorem lt_two_pow_halvings {fuel n : Nat} (h : n < 2 ^ fuel) : n < 2 ^ halvings fuel n := by
  induction fuel generalizing n with
  | zero => exact h
  | succ fuel ih =>
    simp only [halvings]
    split
    · omega
    · have hlt : n / 2 < 2 ^ fuel := by omega
      have := ih hlt
      omega

theorem halvings_le (fuel n : Nat) : halvings fuel n ≤ fuel := by
  induction fuel generalizing n with
  | zero => exact Nat.le_refl 0
  | succ fuel ih =>
    simp only [halvings]
    split
    · omega
    · exact Nat.succ_le_succ (ih (n / 2))

/-- A controller is opened with a page size that, in units of 4 KiB and as a `uint32_t`, is not 0 and
has 16 bits. -/
theorem nvmCtrlInit_encoded {alloc : Bool} {hostPage : Nat} {cap : BitVec 64} {ctrl : NvmCtrl}
    (h : nvmCtrlInit alloc hostPage cap = .ok ctrl) :
    0 < u32 (hostPage / 2 ^ 12) ∧ u32 (hostPage / 2 ^ 12) < 2 ^ 16 := by
  have hmax : capMpsMax cap < 16 := Nat.mod_lt _ (by decide)
  have henc : encodePageSize hostPage % 2 ^ 8 ≤ 15 := by
    simp only [nvmCtrlInit] at h
    split at h
    · cases h
    split at h
    · cases h
    split at h
    · cases h
    · omega
  rw [encodePageSize, nvmB2log] at henc
  have hlt : u32 (hostPage / 2 ^ 12) < 2 ^ 32 := Nat.mod_lt _ (by decide)
  generalize u32 (hostPage / 2 ^ 12) = n at hlt henc ⊢
  have hle := halvings_le 32 n
  have hn := lt_two_pow_halvings hlt
  have hzero : n = 0 → halvings 32 n = 0 := by
    rintro rfl
    rfl
  generalize halvings 32 n = k at hle hn hzero henc
  simp only [u32] at henc
  -- 0 wraps around, which no `MPSMAX` allows
  have hk : 1 ≤ k ∧ k ≤ 16 := by omega
  exact ⟨by omega, hn.trans_le (Nat.pow_le_pow_right (by decide) hk.2)⟩

/-- A page has at least 4 KiB. -/
theorem nvmCtrlInit_large {alloc : Bool} {hostPage : Nat} {cap : BitVec 64} {ctrl : NvmCtrl}
    (h : nvmCtrlInit alloc hostPage cap = .ok ctrl) : 2 ^ 12 ≤ ctrl.pageSize := by
  have hpos := (nvmCtrlInit_encoded h).1
  rw [(nvmCtrlInit_ok h).2]
  simp only [u32] at hpos ⊢
  omega

/-! ## Reset -/

/-- The registers that a reset writes. -/
structure CtrlRegs where
  cc : Nat
  aqa : Nat
  acq : BitVec 64
  asq : BitVec 64

/-- `CC.EN`. -/
def CtrlRegs.enabled (r : CtrlRegs) : Bool := r.cc % 2 = 1

/-- The number of milliseconds that a loop around `_nvm_delay_remain` waits at most. -/
def delays (timeout : Nat) : Nat := (999999 + u64 (1000000 * timeout)) / 1000000

/-- One of the loops on `CSTS.RDY`, from reading number `i` on and with `n` readings to go after
this one: whether the wanted value was read, and the number of the next reading. -/
def waitRdy (rdy : Nat → Bool) (want : Bool) : (n i : Nat) → Bool × Nat
  | 0, i => (rdy i = want, i + 1)
  | n + 1, i => if rdy i = want then (true, i + 1) else waitRdy rdy want n (i + 1)

/-- What a reset writes once the controller is disabled: the admin queues' sizes, 0's based and one
page each, their addresses, and `CC` with the entry sizes, the page size and `EN`. -/
def resetRegs (ctrl : NvmCtrl) (acq asq : BitVec 64) : CtrlRegs :=
  let cqMax := u32 ((2 ^ 64 - 1) + ctrl.pageSize / 16)
  let sqMax := u32 ((2 ^ 64 - 1) + ctrl.pageSize / 64)
  { cc := wb (nvmB2log 16) 23 20 ||| wb (nvmB2log 64) 19 16 |||
      wb (encodePageSize ctrl.pageSize) 10 7 ||| wb 0 3 1 ||| wb 1 0 0
    aqa := wb cqMax 27 16 ||| wb sqMax 11 0
    acq := acq
    asq := asq }

/-- `nvm_raw_ctrl_reset`. -/
def nvmRawCtrlReset (ctrl : NvmCtrl) (rdy : Nat → Bool) (acq asq : BitVec 64) (r : CtrlRegs) :
    Option Errno × CtrlRegs :=
  match waitRdy rdy false (delays ctrl.timeout - 1) 0 with
  | (false, _) => (some .ETIME, { r with cc := r.cc / 2 * 2 })
  | (true, i) =>
    match waitRdy rdy true (delays ctrl.timeout - 1) i with
    | (false, _) => (some .ETIME, resetRegs ctrl acq asq)
    | (true, _) => (none, resetRegs ctrl acq asq)

theorem resetRegs_enabled (ctrl : NvmCtrl) (acq asq : BitVec 64) :
    (resetRegs ctrl acq asq).enabled = true := by
  have hen : wb 1 0 0 = 1 := by decide
  simp only [resetRegs, CtrlRegs.enabled, hen, Nat.or_mod_two_eq_one, or_true, decide_true]

end Nvm
end UGDS
