import Mathlib.Logic.Function.Basic
import Mathlib.Data.Fintype.Basic
import Mathlib.Tactic.IntervalCases

/-!
# UGDS.Nvm.Types

Data types of libnvm (`nvm_types.h`) as far as the modelled functions read or write them.

`size_t`, `uint64_t`, `uint32_t` and pointers are natural numbers; wherever the code's arithmetic
could leave its type, the result is reduced with `u64`, `u32` or `u16`. Queue entries and bus
addresses are bit vectors, as the controller sees them. A pointer is its address, 0 is `NULL`.

The `head_lock`, `tail_lock`, `tickets` and the other lock-free fields of `nvm_queue_t` belong to
the GPU-side queue code, which is not in this repository; nothing here reads them.
-/

namespace UGDS

def u16 (n : Nat) : Nat := n % 2 ^ 16
def u32 (n : Nat) : Nat := n % 2 ^ 32
def u64 (n : Nat) : Nat := n % 2 ^ 64

theorem u32_of_lt {n : Nat} (h : n < 2 ^ 32) : u32 n = n := Nat.mod_eq_of_lt h
theorem u64_of_lt {n : Nat} (h : n < 2 ^ 64) : u64 n = n := Nat.mod_eq_of_lt h
theorem u64_lt (n : Nat) : u64 n < 2 ^ 64 := Nat.mod_lt _ (by decide)

/-- The error numbers the modelled functions return. -/
inductive Errno where
  | EIO | EBADF | EAGAIN | ENOMEM | EFAULT | EINVAL | ENOTTY | ENOSPC | ERANGE | ETIME | EOVERFLOW
  deriving DecidableEq, Repr

def Errno.code : Errno → Int
  | Errno.EIO => 5
  | .EBADF => 9
  | .EAGAIN => 11
  | .ENOMEM => 12
  | .EFAULT => 14
  | .EINVAL => 22
  | .ENOTTY => 25
  | .ENOSPC => 28
  | .ERANGE => 34
  | .ETIME => 62
  | .EOVERFLOW => 75

theorem Errno.code_pos (e : Errno) : 0 < e.code := by
  cases e <;> decide

namespace Nvm

/-- `nvm_ctrl_t`. The memory-mapped registers enter only through the doorbell offsets of
`nvmQueueClear`. -/
structure NvmCtrl where
  pageSize : Nat
  dstrd : Nat
  timeout : Nat
  maxQs : Nat
  deriving DecidableEq, Repr

/-- `nvm_dma_t` together with the controller of its container's map (`container->map->ctrl`),
the one `map_range` was called through. `n_ioaddrs` is the length of the address list. -/
structure NvmDma where
  vaddr : Nat
  isLocal : Bool
  contiguous : Bool
  pageSize : Nat
  ioaddrs : List (BitVec 64)
  ctrl : Nat
  deriving DecidableEq, Repr

def NvmDma.nIoaddrs (d : NvmDma) : Nat := d.ioaddrs.length

/-- `nvm_queue_t`. `db` is the doorbell's offset in BAR0 (`none` for `NULL`); `phase` is only
ever 0 or 1. -/
structure NvmQueue where
  no : Nat
  es : Nat
  qs : Nat
  head : Nat
  tail : Nat
  last : Nat
  phase : Bool
  isLocal : Bool
  db : Option Nat
  vaddr : Nat
  ioaddr : BitVec 64
  deriving DecidableEq, Repr

/-! ## Completions -/

/-- One instance each for the indices into the four dwords of a completion and the sixteen of a
command. -/
instance neZeroCpl : NeZero 4 := ⟨by decide⟩

instance neZeroCmd : NeZero 16 := ⟨by decide⟩

/-- `nvm_cpl_t`: four dwords. -/
structure NvmCpl where
  dword : Fin 4 → BitVec 32
  deriving DecidableEq

/-- `NVM_CPL_STATUS`: the 16-bit field at byte 14. -/
def NvmCpl.sf (c : NvmCpl) : BitVec 16 := (c.dword 3 >>> 16).setWidth 16

/-- The phase tag, `_RB(*NVM_CPL_STATUS(cpl), 0, 0)`. -/
def NvmCpl.phaseTag (c : NvmCpl) : Bool := c.sf.getLsbD 0

/-- The status code type and status code, `(dword[3] >> 17) & 0x7FF`. -/
def NvmCpl.status (c : NvmCpl) : BitVec 32 := (c.dword 3 >>> 17) &&& 0x7FF#32

/-- The entry with its phase tag replaced: what the controller stores for `c` in a lap whose tag
is `b`. -/
def NvmCpl.withPhase (c : NvmCpl) (b : Bool) : NvmCpl :=
  ⟨Function.update c.dword 3
    ((c.dword 3 &&& ~~~(1#32 <<< 16)) ||| (if b then 1#32 <<< 16 else 0#32))⟩

def NvmCpl.zero : NvmCpl := ⟨fun _ => 0#32⟩

theorem NvmCpl.phaseTag_withPhase (c : NvmCpl) (b : Bool) : (c.withPhase b).phaseTag = b := by
  cases b <;> simp [phaseTag, sf, withPhase]

theorem NvmCpl.status_withPhase (c : NvmCpl) (b : Bool) :
    (c.withPhase b).status = c.status := by
  -- bit 16 is below the eleven bits that the status is made of
  apply BitVec.eq_of_getLsbD_eq
  intro i hi
  cases b <;> simp only [status, withPhase, Function.update_self] <;> interval_cases i <;> simp

theorem NvmCpl.phaseTag_zero : NvmCpl.zero.phaseTag = false := by decide

/-! ## Commands -/

/-- `nvm_cmd_t`: sixteen dwords. -/
structure NvmCmd where
  dword : Fin 16 → BitVec 32
  deriving DecidableEq

def NvmCmd.set (c : NvmCmd) (i : Fin 16) (v : BitVec 32) : NvmCmd := ⟨Function.update c.dword i v⟩

/-- The command after `memset(cmd, 0, sizeof(nvm_cmd_t))`. -/
def NvmCmd.zero : NvmCmd := ⟨fun _ => 0#32⟩

theorem NvmCmd.set_dword (c : NvmCmd) (i j : Fin 16) (v : BitVec 32) :
    (c.set i v).dword j = if j = i then v else c.dword j := by
  simp [NvmCmd.set, Function.update_apply]

end Nvm
end UGDS
