import UGDS.Io.Calls

/-!
# UGDS.Io.Exact

`do_io` transfers exactly the requested bytes, for as long as the controller completes every
command: over any number of earlier calls, each queue pair is idle when a call starts
(`IoSys.Ready`), and the commands of a call cover the disk range once, in order, and pair it with
the buffer's pages.

* `call_exact`: one accepted call, for any `Geometry` and any buffer.
* `geometry_x86`: 4 KiB pages, a power-of-two block size of at least 512 bytes and a transfer limit
  that is unset or a power of two of at least a page fit together.
* `do_io_exact`: a call on a registered buffer.
-/

namespace UGDS

open Nvm Lib

namespace IoSys

/-- Every queue pair is idle, and `qps` has the `num_qps` entries that the index is taken from. -/
structure Ready (s : IoSys) : Prop where
  num_eq : s.hs.numQps = s.hs.qps.length
  num_pos : 0 < s.hs.numQps
  num_le : s.hs.numQps < 2 ^ 16
  idle : ∀ q ∈ s.hs.qps, q.pair.Idle

theorem Ready.of_fresh {hs : HandleState} (h : hs.Fresh) (t : Nat) : Ready ⟨hs, t⟩ :=
  ⟨h.num_eq, h.num_pos, h.num_le, fun q hq => (h.pairs q hq).inv.2⟩

/-- The queue pair of the next call. -/
theorem Ready.next {s : IoSys} (h : s.Ready) :
    ∃ q, s.hs.qps[s.hs.qpIdx]? = some q ∧ q.pair.Idle := by
  obtain ⟨q, hmem, hq⟩ := HandleState.exists_next h.num_pos h.num_le h.num_eq
  exact ⟨q, hq, h.idle q hmem⟩

/-- The handle's parameters never change. -/
def Same (s s' : IoSys) : Prop :=
  s'.hs.ctrl = s.hs.ctrl ∧ s'.hs.blockSize = s.hs.blockSize ∧
    s'.hs.maxTransferSize = s.hs.maxTransferSize

theorem step_ready {dev : Device} {s s' : IoSys} {l : IoStep} (h : s.Ready)
    (hdev : dev.Completes s.hs.spins) (hs : s.step dev l = some s') : s'.Ready ∧ Same s s' := by
  rcases step_cases hs with he | ⟨i, q, pair, hq, he, -, hidle⟩
  · exact ⟨⟨by rw [he]; exact h.num_eq, by rw [he]; exact h.num_pos, by rw [he]; exact h.num_le,
      by rw [he]; exact h.idle⟩, by rw [Same, he]; exact ⟨rfl, rfl, rfl⟩⟩
  · refine ⟨⟨?_, by rw [he]; exact h.num_pos, by rw [he]; exact h.num_le, ?_⟩, ?_⟩
    · rw [he]
      simpa using h.num_eq
    · intro q' hq'
      rw [he] at hq'
      rcases List.mem_or_eq_of_mem_set hq' with hm | rfl
      · exact h.idle q' hm
      · exact hidle (h.idle q (List.mem_of_getElem? hq)) hdev
    · rw [Same, he]
      exact ⟨rfl, rfl, rfl⟩

theorem run_ready {dev : Device} {s s' : IoSys} {tr : List (IoSys × IoStep)} (h : s.Ready)
    (hdev : dev.Completes s.hs.spins) (hr : Run (step dev) s tr s') : s'.Ready ∧ Same s s' := by
  induction hr with
  | refl => exact ⟨h, rfl, rfl, rfl⟩
  | @cons s s₁ s₂ l tr hs _ ih =>
    obtain ⟨h1, hc, hb, hm⟩ := step_ready h hdev hs
    obtain ⟨h2, hc', hb', hm'⟩ := ih h1 (by rw [HandleState.spins, hc]; exact hdev)
    exact ⟨h2, hc'.trans hc, hb'.trans hb, hm'.trans hm⟩

end IoSys

/-- The commands of an accepted call, with a controller that completes everything: they cover the
call's blocks once and in order, and pair them with the pages of the buffer from page `start`
on. -/
theorem call_exact {dev : Device} {s : IoSys} {c : IoCall} (g : Geometry s.hs)
    (hb : 2 ≤ s.hs.blockSize) (hdev : dev.Completes s.hs.spins) (hready : s.Ready)
    (hv : c.args.Valid s.hs) {dma : NvmDma} {fly : Bool} {start : Nat}
    (hbuf : ioBuffer s.hs c.reg c.mapDevice c.args = .ok (dma, fly, start))
    (hpg : start + (c.args.size + s.hs.ctrl.pageSize - 1) / s.hs.ctrl.pageSize ≤
      dma.ioaddrs.length) :
    ∃ r q q' ds, s.call dev c = some r ∧ s.hs.qps[s.hs.qpIdx]? = some q ∧
      r.hs.qps[s.hs.qpIdx]? = some q' ∧ r.ret = ssize c.args.size ∧ r.used = some dma ∧
      q'.pair.cmds = q.pair.cmds ++ ds.map Post.cmd ∧ q'.pair.posted = q.pair.posted ++ ds ∧
      Transferred dma.ioaddrs s.hs.ctrl.pageSize s.hs.blockSize q.pair.prpAddr
        (c.args.fileOffset.toNat / s.hs.blockSize) start (c.args.size / s.hs.blockSize) ds := by
  obtain ⟨q, hq, hidle⟩ := hready.next
  have hlba : c.args.fileOffset.toNat / s.hs.blockSize + (c.args.size - 0) / s.hs.blockSize <
      2 ^ 64 := by
    have h1 := c.args.fileOffset_lt
    have h2 := c.args.size_lt
    have h3 : c.args.fileOffset.toNat / s.hs.blockSize ≤ c.args.fileOffset.toNat / 2 :=
      Nat.div_le_div_left hb (by decide)
    have h4 : c.args.size / s.hs.blockSize ≤ c.args.size / 2 := Nat.div_le_div_left hb (by decide)
    simp only [Nat.sub_zero]
    omega
  obtain ⟨t', qp', ds, hl, -, -, hcm, hpo, -, htr⟩ :=
    ioLoop_exact g hdev dma c.args.opcode (c.args.size / s.hs.blockSize) 0
      (c.args.fileOffset.toNat / s.hs.blockSize) start s.t hidle (Nat.zero_le _)
      (Nat.dvd_of_mod_eq_zero (by rw [Nat.sub_zero]; exact hv.size_block))
      (le_refl _) (by rw [Nat.sub_zero]; exact hpg) hlba
  have hcall := doIo_valid dev s.t hv hbuf (by have := hready.num_pos; omega) hq
  rw [hl] at hcall
  have hlt := (List.getElem?_eq_some_iff.mp hq).1
  exact ⟨_, q, _, ds, hcall, hq, List.getElem?_set_self hlt, rfl, rfl, hcm, hpo, htr⟩

/-! ## Bytes -/

section Bytes

variable {ioaddrs : List (BitVec 64)} {page block lba pg n : Nat} {listAddr : BitVec 64}
  {ds : List Post}

/-- Each byte of the range is covered by exactly one command. -/
theorem Transferred.unique_cover (h : Transferred ioaddrs page block listAddr lba pg n ds)
    (hb : 0 < block) {x : Nat} (h1 : lba * block ≤ x) (h2 : x < (lba + n) * block) :
    ∃! j : Nat, ∃ d, ds[j]? = some d ∧ d.covers block x := by
  simp only [Post.covers_iff block hb]
  exact h.tiles.unique_cover ((Nat.le_div_iff_mul_le hb).mpr h1) ((Nat.div_lt_iff_lt_mul hb).mpr h2)

/-- No byte outside the range is covered. -/
theorem Transferred.range (h : Transferred ioaddrs page block listAddr lba pg n ds) {d : Post}
    (hd : d ∈ ds) {x : Nat} (hx : d.covers block x) :
    lba * block ≤ x ∧ x < (lba + n) * block := by
  obtain ⟨h1, h2⟩ := h.tiles.mem_bounds d hd
  exact ⟨(Nat.mul_le_mul_right block h1).trans hx.1, hx.2.trans_le (Nat.mul_le_mul_right block h2)⟩

theorem Transferred.busAddr (h : Transferred ioaddrs page block listAddr lba pg n ds) {d : Post}
    (hd : d ∈ ds) {x : Nat} (hx : d.covers block x) :
    ∃ a, ioaddrs[pg + (x - lba * block) / page]? = some a ∧
      d.busAddr page block listAddr x = some (a + BitVec.ofNat 64 ((x - lba * block) % page)) := by
  obtain ⟨a, ha, hp, hm⟩ := h.addr d hd x hx
  exact ⟨a, ha, by simp only [Post.busAddr, hp, hm, Option.map_some]⟩

/-- When the buffer's page addresses are page-aligned, PRP1 has no offset and the decoding that
heeds it gives the same address. -/
theorem Transferred.busAddrOff (h : Transferred ioaddrs page block listAddr lba pg n ds)
    (hal : ∀ a ∈ ioaddrs, a.toNat % page = 0) {d : Post} (hd : d ∈ ds) {x : Nat}
    (hx : d.covers block x) :
    d.busAddrOff page block listAddr x = d.busAddr page block listAddr x := by
  obtain ⟨a, ha, hp, -⟩ := h.addr d hd x hx
  have hoff := hal _ (h.prp1 d hd)
  have haa := hal a (List.mem_of_getElem? ha)
  simp only [Post.busAddrOff, Post.busAddr, hoff, Nat.zero_add, hp, Option.map_some, haa,
    BitVec.sub_zero]

end Bytes

/-- 4 KiB pages, blocks of a power of two of at least 512 bytes, and a transfer limit that is unset
or a power of two of at least a page. -/
theorem geometry_x86 {hs : HandleState} {k : Nat} (hk : 9 ≤ k) (hp : hs.ctrl.pageSize = 4096)
    (hb : hs.blockSize = 2 ^ k)
    (hm : hs.maxTransferSize = 0 ∨ ∃ j, 12 ≤ j ∧ hs.maxTransferSize = 2 ^ j)
    (hfit : hs.blockSize ≤ hs.maxXfer) : Geometry hs := by
  have hb512 : 512 ≤ hs.blockSize := by
    rw [hb]
    exact Nat.pow_le_pow_right (n := 2) (by decide) hk
  have hmax : hs.maxXfer ≤ 2101248 ∧ 4096 ∣ hs.maxXfer := by
    have hprp : u64 ((4096 / 8 + 1) * 4096) = 2101248 := by decide
    simp only [HandleState.maxXfer, hp, hprp]
    rcases hm with h0 | ⟨j, hj, h2⟩
    · rw [if_pos h0]
      decide
    · have hd : 4096 ∣ 2 ^ j := Nat.pow_dvd_pow 2 hj
      have hpos : 0 < 2 ^ j := Nat.two_pow_pos j
      have hge : 4096 ≤ 2 ^ j := Nat.le_of_dvd hpos hd
      have hne : ¬2 ^ j = 0 := by omega
      have hnlt : ¬2 ^ j < 4096 := by omega
      rw [h2, if_neg hne, if_neg hnlt]
      split
      · exact ⟨le_refl _, by decide⟩
      · exact ⟨by omega, hd⟩
  refine ⟨⟨by omega, by omega, ?_, by rw [hp]; exact hmax.2, hfit, by rw [hp]; omega, by omega⟩, ?_⟩
  · rw [hb, hp]
    rcases Nat.le_total k 12 with h | h
    · exact .inl (Nat.pow_dvd_pow 2 h)
    · exact .inr (Nat.pow_dvd_pow 2 h)
  · have h1 : hs.maxXfer / hs.blockSize ≤ hs.maxXfer / 512 := Nat.div_le_div_left hb512 (by decide)
    omega

/-- The buffer's share of the checks, for a registered buffer. -/
theorem ioBuffer_registered {hs : HandleState} {dma : NvmDma}
    {mapDevice : Nat → Nat → Except Errno NvmDma} {a : IoArgs} {x : NvmDma × Bool × Nat}
    (h : ioBuffer hs (some dma) mapDevice a = .ok x) :
    x = (dma, false, a.bufOffset.toNat / hs.ctrl.pageSize) ∧
      a.bufOffset.toNat % hs.ctrl.pageSize = 0 ∧
      u64 (a.bufOffset.toNat / hs.ctrl.pageSize +
        u64 (a.size + hs.ctrl.pageSize - 1) / hs.ctrl.pageSize) ≤ dma.ioaddrs.length := by
  simp only [ioBuffer] at h
  split at h
  · cases h
  · split at h
    · cases h
    · rename_i h1 h2
      cases h
      exact ⟨rfl, not_not.mp h1, not_lt.mp h2⟩

/-- `do_io` on a registered buffer with 4 KiB pages. The handle may have any number of calls behind
it, the controller completes every command with status 0. A call that passes the checks returns its
size, and the commands it submitted (`ds`, in order) cover each disk byte of the range exactly once
and no other, follow one another, and pair byte `file_offset + i` with byte `bufPtr_offset + i` of
the buffer; if the buffer's addresses are page-aligned, also when the controller takes the low bits
of PRP1 as an offset. -/
theorem do_io_exact (dev : Device) (hs₀ : HandleState) (t₀ : Nat) (h₀ : hs₀.Fresh)
    (hdev : dev.Completes hs₀.spins) (k : Nat) (hk : 9 ≤ k) (hpage : hs₀.ctrl.pageSize = 4096)
    (hblock : hs₀.blockSize = 2 ^ k)
    (hmax : hs₀.maxTransferSize = 0 ∨ ∃ j, 12 ≤ j ∧ hs₀.maxTransferSize = 2 ^ j)
    (hfit : hs₀.blockSize ≤ hs₀.maxXfer)
    (tr : List (IoSys × IoStep)) (s : IoSys) (hr : Run (IoSys.step dev) ⟨hs₀, t₀⟩ tr s)
    (c : IoCall) (dma : NvmDma) (hreg : c.reg = some dma) (hv : c.args.Valid s.hs)
    (hbuf : ∃ x, ioBuffer s.hs c.reg c.mapDevice c.args = .ok x)
    (hsize : c.args.size + 4096 - 1 < 2 ^ 64) :
    ∃ r q q' ds, s.call dev c = some r ∧ s.hs.qps[s.hs.qpIdx]? = some q ∧
      r.hs.qps[s.hs.qpIdx]? = some q' ∧
      r.ret = ssize c.args.size ∧ (c.args.size < 2 ^ 63 → r.ret = c.args.size) ∧
      q'.pair.cmds = q.pair.cmds ++ ds.map Post.cmd ∧ q'.pair.posted = q.pair.posted ++ ds ∧
      (∀ i < c.args.size, ∃! j : Nat, ∃ d, ds[j]? = some d ∧
        d.covers s.hs.blockSize (c.args.fileOffset.toNat + i)) ∧
      ds.IsChain (fun d d' => d.cmd.slba.toNat + d.cmd.nBlocks = d'.cmd.slba.toNat) ∧
      ∀ d ∈ ds, ∀ x, d.covers s.hs.blockSize x →
        ∃ i a, i < c.args.size ∧ x = c.args.fileOffset.toNat + i ∧
          dma.ioaddrs[(c.args.bufOffset.toNat + i) / 4096]? = some a ∧
          d.busAddr 4096 s.hs.blockSize q.pair.prpAddr x =
            some (a + BitVec.ofNat 64 ((c.args.bufOffset.toNat + i) % 4096)) ∧
          ((∀ a ∈ dma.ioaddrs, a.toNat % 4096 = 0) →
            d.busAddrOff 4096 s.hs.blockSize q.pair.prpAddr x =
              some (a + BitVec.ofNat 64 ((c.args.bufOffset.toNat + i) % 4096))) := by
  obtain ⟨hready, hctrl, hbs, hmts⟩ := IoSys.run_ready (.of_fresh h₀ t₀) hdev hr
  have hmx : s.hs.maxXfer = hs₀.maxXfer := by simp only [HandleState.maxXfer, hctrl, hmts]
  have hp : s.hs.ctrl.pageSize = 4096 := by rw [hctrl]; exact hpage
  have g : Geometry s.hs :=
    geometry_x86 hk hp (hbs.trans hblock) (by rw [hmts]; exact hmax) (by rw [hbs, hmx]; exact hfit)
  have hb2 : 2 ≤ s.hs.blockSize := by
    rw [hbs, hblock]
    calc 2 = 2 ^ 1 := rfl
      _ ≤ 2 ^ k := Nat.pow_le_pow_right (by decide) (by omega)
  obtain ⟨x, hx⟩ := hbuf
  rw [hreg] at hx
  obtain ⟨rfl, hoff, hlen⟩ := ioBuffer_registered hx
  rw [← hreg] at hx
  have hsum : c.args.bufOffset.toNat / s.hs.ctrl.pageSize +
      (c.args.size + s.hs.ctrl.pageSize - 1) / s.hs.ctrl.pageSize ≤ dma.ioaddrs.length := by
    have hbo := c.args.bufOffset_lt
    rw [hp] at hlen ⊢
    rw [u64_of_lt hsize, u64_of_lt (by omega)] at hlen
    exact hlen
  obtain ⟨r, q, q', ds, hcall, hq, hq', hret, -, hcm, hpo, htr⟩ :=
    call_exact g hb2 (by rw [HandleState.spins, hctrl]; exact hdev) hready hv hx hsum
  have hlba : c.args.fileOffset.toNat / s.hs.blockSize * s.hs.blockSize =
      c.args.fileOffset.toNat := Nat.div_mul_cancel (Nat.dvd_of_mod_eq_zero hv.file_block)
  have hend : (c.args.fileOffset.toNat / s.hs.blockSize + c.args.size / s.hs.blockSize) *
      s.hs.blockSize = c.args.fileOffset.toNat + c.args.size := by
    rw [Nat.add_mul, hlba, Nat.div_mul_cancel (Nat.dvd_of_mod_eq_zero hv.size_block)]
  refine ⟨r, q, q', ds, hcall, hq, hq', hret, ?_, hcm, hpo, ?_, htr.tiles.isChain, ?_⟩
  · intro hlt
    rw [hret, ssize, if_pos hlt]
  · intro i hi
    exact htr.unique_cover g.block_pos (by omega) (by omega)
  · intro d hd x hx'
    obtain ⟨h1, h2⟩ := htr.range hd hx'
    rw [hlba] at h1
    rw [hend] at h2
    obtain ⟨a, ha, haddr⟩ := htr.busAddr hd hx'
    rw [hlba, hp] at ha haddr
    rw [hp] at hoff
    -- the offset into the buffer is a whole number of pages
    have hdiv : (c.args.bufOffset.toNat + (x - c.args.fileOffset.toNat)) / 4096 =
        c.args.bufOffset.toNat / 4096 + (x - c.args.fileOffset.toNat) / 4096 := by omega
    have hmod : (c.args.bufOffset.toNat + (x - c.args.fileOffset.toNat)) % 4096 =
        (x - c.args.fileOffset.toNat) % 4096 := by omega
    refine ⟨x - c.args.fileOffset.toNat, a, by omega, by omega, by rw [hdiv]; exact ha,
      by rw [hmod]; exact haddr, fun hal => ?_⟩
    rw [hmod, ← haddr]
    rw [hp] at htr
    exact htr.busAddrOff hal hd hx'

/-- A buffer of four pages, and the call that writes three of them from page 1 on, so that the
list page is used. -/
def fourPages : NvmDma := ⟨0, true, false, 4096, [0x9000#64, 0x4000#64, 0x7000#64, 0x1000#64], 0⟩

def threePageCall : IoCall where
  reg := some fourPages
  mapDevice := fun _ _ => .error .ENOMEM
  args := ⟨0x200000, 12288, 1024, 4096, NVM_IO_WRITE, sampleBase_lt, by decide, by decide, by decide⟩

theorem do_io_exact_three_pages :
    ∃ r, (IoSys.mk sampleHandle 0).call Device.prompt threePageCall = some r ∧ r.ret = 12288 := by
  have hbuf : ioBuffer sampleHandle threePageCall.reg threePageCall.mapDevice threePageCall.args =
      .ok (fourPages, false, 1) := rfl
  obtain ⟨r, _, _, _, hr, _, _, _, hret, _⟩ :=
    do_io_exact Device.prompt sampleHandle 0 sampleHandle_fresh (Device.prompt_completes _) 9
      (by decide) rfl rfl (.inl rfl) (by decide) [] ⟨sampleHandle, 0⟩ .refl threePageCall fourPages
      rfl (by constructor <;> decide) ⟨_, hbuf⟩ (by decide)
  exact ⟨r, hr, hret (by decide)⟩

end UGDS
