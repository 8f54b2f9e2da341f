import UGDS.Nvm.Types

/-!
# UGDS.Nvm.Cmd

Building commands (`nvm_cmd.h`) and reading them back the way a controller does.

`nvmCmdHeader`, `nvmCmdDataPtr` and `nvmCmdRwBlks` are the source's functions on a command's
dwords. `slba`, `nBlocks`, `prp1` and `prp2` decode the same dwords by the NVMe field layout, and
`buildRw` is the sequence of the three that `do_io` uses on a zeroed slot; `buildRw_*` say that
what is decoded is what was put in.
-/

namespace UGDS
namespace Nvm

/-- `NVM_IO_WRITE`, `NVM_IO_READ`. -/
def NVM_IO_WRITE : BitVec 8 := 0x01#8
def NVM_IO_READ : BitVec 8 := 0x02#8

/-- The opcodes of `nvm_admin_command_set` that libugds sends. -/
def NVM_ADMIN_DELETE_SQ : BitVec 8 := 0x00#8
def NVM_ADMIN_CREATE_SQ : BitVec 8 := 0x01#8
def NVM_ADMIN_DELETE_CQ : BitVec 8 := 0x04#8
def NVM_ADMIN_CREATE_CQ : BitVec 8 := 0x05#8
def NVM_ADMIN_IDENTIFY : BitVec 8 := 0x06#8
def NVM_ADMIN_SET_FEATURES : BitVec 8 := 0x09#8

/-- `nvm_cmd_header`. -/
def nvmCmdHeader (cmd : NvmCmd) (cid : BitVec 16) (opcode : BitVec 8) (nsId : BitVec 32) :
    NvmCmd :=
  (cmd.set 0 ((cid.setWidth 32 <<< 16) ||| (opcode &&& 0x7f#8).setWidth 32)).set 1 nsId

/-- `nvm_cmd_data_ptr`. -/
def nvmCmdDataPtr (cmd : NvmCmd) (prp1 prp2 : BitVec 64) : NvmCmd :=
  ((((cmd.set 0 (cmd.dword 0 &&& ~~~((0x03#32 <<< 14) ||| (0x03#32 <<< 8)))).set 6
    (prp1.setWidth 32)).set 7 ((prp1 >>> 32).setWidth 32)).set 8 (prp2.setWidth 32)).set 9
    ((prp2 >>> 32).setWidth 32)

/-- `nvm_cmd_rw_blks`. The block count is 0's based; `n_blks - 1` wraps in 16 bits. -/
def nvmCmdRwBlks (cmd : NvmCmd) (startLba : BitVec 64) (nBlks : BitVec 16) : NvmCmd :=
  ((cmd.set 10 (startLba.setWidth 32)).set 11 ((startLba >>> 32).setWidth 32)).set 12
    ((cmd.dword 12 &&& 0xffff0000#32) ||| (nBlks - 1#16).setWidth 32)

/-! ## Decoding -/

namespace NvmCmd

def opcode (c : NvmCmd) : BitVec 8 := (c.dword 0).setWidth 8
def prp1 (c : NvmCmd) : BitVec 64 := c.dword 7 ++ c.dword 6
def prp2 (c : NvmCmd) : BitVec 64 := c.dword 9 ++ c.dword 8

/-- SLBA, the starting block of a read or write. -/
def slba (c : NvmCmd) : BitVec 64 := c.dword 11 ++ c.dword 10

/-- NLB is 0's based: a read or write covers one block more than the field says. -/
def nBlocks (c : NvmCmd) : Nat := ((c.dword 12).setWidth 16 : BitVec 16).toNat + 1

end NvmCmd

/-- A 64-bit value split over two dwords is put together again by the controller. -/
theorem split_append (x : BitVec 64) :
    ((x >>> 32).setWidth 32 ++ x.setWidth 32 : BitVec 64) = x := by
  apply BitVec.eq_of_toNat_eq
  have := x.isLt
  simp only [BitVec.toNat_append, BitVec.toNat_setWidth, BitVec.toNat_ushiftRight,
    Nat.shiftRight_eq_div_pow]
  rw [← Nat.shiftLeft_add_eq_or_of_lt (Nat.mod_lt _ (by decide)), Nat.shiftLeft_eq]
  omega

/-- What `do_io` writes into a slot: header, data pointer and block range on a zeroed command. -/
def buildRw (cid : BitVec 16) (opcode : BitVec 8) (nsId : BitVec 32) (prp1 prp2 lba : BitVec 64)
    (nBlks : BitVec 16) : NvmCmd :=
  nvmCmdRwBlks (nvmCmdDataPtr (nvmCmdHeader NvmCmd.zero cid opcode nsId) prp1 prp2) lba nBlks

section Build

variable (cid : BitVec 16) (op : BitVec 8) (ns : BitVec 32) (p q lba : BitVec 64) (n : BitVec 16)

@[simp] theorem buildRw_slba : (buildRw cid op ns p q lba n).slba = lba := by
  simp only [buildRw, nvmCmdRwBlks, NvmCmd.slba, NvmCmd.set_dword]
  exact split_append lba

@[simp] theorem buildRw_prp1 : (buildRw cid op ns p q lba n).prp1 = p := by
  simp only [buildRw, nvmCmdRwBlks, nvmCmdDataPtr, NvmCmd.prp1, NvmCmd.set_dword]
  exact split_append p

@[simp] theorem buildRw_prp2 : (buildRw cid op ns p q lba n).prp2 = q := by
  simp only [buildRw, nvmCmdRwBlks, nvmCmdDataPtr, NvmCmd.prp2, NvmCmd.set_dword]
  exact split_append q

/-- The mask that clears the data pointer's format bits leaves the opcode alone. -/
theorem buildRw_opcode : (buildRw cid op ns p q lba n).opcode = op &&& 0x7f#8 := by
  have hz : (buildRw cid op ns p q lba n).dword 0 =
      ((cid.setWidth 32 <<< 16) ||| (op &&& 0x7f#8).setWidth 32) &&&
        ~~~((0x03#32 <<< 14) ||| (0x03#32 <<< 8)) := by
    simp [buildRw, nvmCmdRwBlks, nvmCmdDataPtr, nvmCmdHeader, NvmCmd.set_dword]
  rw [NvmCmd.opcode, hz]
  apply BitVec.eq_of_getLsbD_eq
  intro i hi
  have : i = 0 ∨ i = 1 ∨ i = 2 ∨ i = 3 ∨ i = 4 ∨ i = 5 ∨ i = 6 ∨ i = 7 := by omega
  rcases this with rfl | rfl | rfl | rfl | rfl | rfl | rfl | rfl <;>
    simp

theorem buildRw_nBlocks : (buildRw cid op ns p q lba n).nBlocks = (n - 1#16).toNat + 1 := by
  have hz : (buildRw cid op ns p q lba n).dword 12 = (n - 1#16).setWidth 32 := by
    simp [buildRw, nvmCmdRwBlks, nvmCmdDataPtr, nvmCmdHeader, NvmCmd.set_dword, NvmCmd.zero]
  simp [NvmCmd.nBlocks, hz]

/-- Block counts from 1 to 65536 survive the 16-bit 0's based field. -/
theorem buildRw_nBlocks_ofNat {k : Nat} (h1 : 1 ≤ k) (h2 : k ≤ 65536) :
    (buildRw cid op ns p q lba (BitVec.ofNat 16 k)).nBlocks = k := by
  rw [buildRw_nBlocks]
  simp only [BitVec.toNat_sub, BitVec.toNat_ofNat]
  omega

end Build

end Nvm
end UGDS
