import UGDS.Io.Exact
import UGDS.Nvm.Dma

/-!
# UGDS.Io.OnTheFly

A buffer that is not registered is mapped for one call: `do_io` hands `bufPtr_base + bufPtr_offset`
to `nvm_dma_map_device` and starts at page 0 of the new handle. The kernel maps from the 64 KiB page
that this pointer is in, so page 0 of the handle is not the page of the pointer unless the pointer
is 64 KiB-aligned.

* `call_on_gpu`: a call on any handle of GPU memory pairs disk byte `file_offset + i` with a byte
  counted from the start of a 64 KiB page.
* `on_the_fly_exact`: with and without registration a call transfers the same memory exactly when
  `bufPtr_offset` is a multiple of 64 KiB.
* `on_the_fly_offset`: with an offset of one 4 KiB page it does not.
-/

namespace UGDS

open Nvm Lib Drv

/-- Each byte of a call is covered by exactly one of the commands `ds`. -/
def CoversOnce (s : IoSys) (a : IoArgs) (ds : List Post) : Prop :=
  ∀ i < a.size, ∃! n : Nat, ∃ d, ds[n]? = some d ∧
    d.covers s.hs.blockSize (a.fileOffset.toNat + i)

/-- The commands `ds` pair disk byte `file_offset + i` with GPU virtual byte `v + i`. -/
def PairsWith (s : IoSys) (D : Nat → BitVec 64) (a : IoArgs) (v : Nat) (listAddr : BitVec 64)
    (ds : List Post) : Prop :=
  ∀ i < a.size, ∀ d ∈ ds, d.covers s.hs.blockSize (a.fileOffset.toNat + i) →
    d.busAddr s.hs.ctrl.pageSize s.hs.blockSize listAddr (a.fileOffset.toNat + i) =
      some (gpuAddr D (v + i))

/-- A call `c` from `s` and the commands `ds` that it submits on its queue pair. -/
def Submits (dev : Device) (s : IoSys) (c : IoCall) (listAddr : BitVec 64) (ds : List Post) :
    Prop :=
  ∃ r q q', s.call dev c = some r ∧ s.hs.qps[s.hs.qpIdx]? = some q ∧
    r.hs.qps[s.hs.qpIdx]? = some q' ∧ r.ret = ssize c.args.size ∧ q.pair.prpAddr = listAddr ∧
    q'.pair.cmds = q.pair.cmds ++ ds.map Post.cmd ∧ q'.pair.posted = q.pair.posted ++ ds

theorem Submits.unique {dev : Device} {s : IoSys} {c : IoCall} {listAddr listAddr' : BitVec 64}
    {ds ds' : List Post} (h : Submits dev s c listAddr ds) (h' : Submits dev s c listAddr' ds') :
    listAddr' = listAddr ∧ ds' = ds := by
  obtain ⟨r, q, q', hc, hq, hq', -, hl, -, hp⟩ := h
  obtain ⟨r₁, q₁, q₁', hc₁, hq₁, hq₁', -, hl₁, -, hp₁⟩ := h'
  rw [hc] at hc₁
  cases hc₁
  rw [hq] at hq₁
  cases hq₁
  rw [hq'] at hq₁'
  cases hq₁'
  rw [hp] at hp₁
  exact ⟨hl₁.symm.trans hl, (List.append_cancel_left hp₁).symm⟩

/-- A call whose buffer is the handle `dma`, from byte `off` of it on, when byte `x` of the handle
is GPU virtual byte `v + x`. -/
theorem call_on_gpu {dev : Device} {s : IoSys} {c : IoCall} (g : Geometry s.hs)
    (hb : 2 ≤ s.hs.blockSize) (hdev : dev.Completes s.hs.spins) (hready : s.Ready)
    (hv : c.args.Valid s.hs) {dma : NvmDma} {fly : Bool} {start : Nat} {q : IOQueuePair}
    (hq : s.hs.qps[s.hs.qpIdx]? = some q)
    (hbuf : ioBuffer s.hs c.reg c.mapDevice c.args = .ok (dma, fly, start))
    (hpg : start + (c.args.size + s.hs.ctrl.pageSize - 1) / s.hs.ctrl.pageSize ≤
      dma.ioaddrs.length)
    {D : Nat → BitVec 64} {v : Nat}
    (hD : ∀ x a, dma.ioaddrs[x / s.hs.ctrl.pageSize]? = some a →
      a + BitVec.ofNat 64 (x % s.hs.ctrl.pageSize) = gpuAddr D (v + x)) :
    ∃ ds, Submits dev s c q.pair.prpAddr ds ∧ CoversOnce s c.args ds ∧
      PairsWith s D c.args (v + start * s.hs.ctrl.pageSize) q.pair.prpAddr ds := by
  obtain ⟨r, q₁, q', ds, hcall, hq₁, hq', hret, -, hcm, hpo, htr⟩ :=
    call_exact g hb hdev hready hv hbuf hpg
  rw [hq] at hq₁
  cases hq₁
  have hlba : c.args.fileOffset.toNat / s.hs.blockSize * s.hs.blockSize =
      c.args.fileOffset.toNat := Nat.div_mul_cancel (Nat.dvd_of_mod_eq_zero hv.file_block)
  have hend : (c.args.fileOffset.toNat / s.hs.blockSize + c.args.size / s.hs.blockSize) *
      s.hs.blockSize = c.args.fileOffset.toNat + c.args.size := by
    rw [Nat.add_mul, hlba, Nat.div_mul_cancel (Nat.dvd_of_mod_eq_zero hv.size_block)]
  refine ⟨ds, ⟨r, q, q', hcall, hq, hq', hret, rfl, hcm, hpo⟩, ?_, ?_⟩
  · intro i hi
    exact htr.unique_cover g.block_pos (by omega) (by omega)
  · intro i hi d hd hx
    obtain ⟨a, ha, haddr⟩ := htr.busAddr hd hx
    rw [hlba, Nat.add_sub_cancel_left] at ha haddr
    have hat := hD (start * s.hs.ctrl.pageSize + i) a
    rw [Nat.mul_add_mod_self_right, Nat.mul_comm start, Nat.mul_add_div g.page_pos] at hat
    rw [haddr, hat ha, Nat.mul_comm start, Nat.add_assoc]

/-- The handle's parameters after any number of calls. -/
theorem Geometry.of_same {s s' : IoSys} (g : Geometry s.hs) (h : IoSys.Same s s') :
    Geometry s'.hs := by
  obtain ⟨hc, hb, hm⟩ := h
  have hmx : s'.hs.maxXfer = s.hs.maxXfer := by simp only [HandleState.maxXfer, hc, hm]
  refine ⟨⟨?_, ?_, ?_, ?_, ?_, ?_, ?_⟩, ?_⟩
  · rw [hc]
    exact g.page_pos
  · rw [hb]
    exact g.block_pos
  · rw [hb, hc]
    exact g.divides
  · rw [hc, hmx]
    exact g.whole
  · rw [hb, hmx]
    exact g.fits
  · rw [hc, hmx]
    exact g.list
  · rw [hc, hmx]
    exact g.small
  · rw [hb, hmx]
    exact g.blocks

/-- Two bytes of one 64 KiB page have different addresses. -/
theorem gpuAddr_inj_page {D : Nat → BitVec 64} {v : Nat}
    (h : gpuAddr D (v / GPU_PAGE_SIZE * GPU_PAGE_SIZE) = gpuAddr D v) : v % GPU_PAGE_SIZE = 0 := by
  have hpos : 0 < GPU_PAGE_SIZE := by decide
  have hlt : v % GPU_PAGE_SIZE < 2 ^ 16 := Nat.mod_lt _ hpos
  rw [gpuAddr, gpuAddr, Nat.mul_div_cancel _ hpos, Nat.mul_mod_left] at h
  have := congrArg BitVec.toNat (BitVec.add_right_inj _ |>.mp h)
  simp only [BitVec.toNat_ofNat] at this
  omega

/-- The buffer's share of the checks, for a buffer that is not registered. -/
theorem ioBuffer_fly {hs : HandleState} {mapDevice : Nat → Nat → Except Errno NvmDma} {a : IoArgs}
    {b : NvmDma × Bool × Nat} (h : ioBuffer hs none mapDevice a = .ok b) :
    ∃ dma, mapDevice (u64 (a.base + a.bufOffset.toNat)) a.size = .ok dma ∧ b = (dma, true, 0) := by
  simp only [ioBuffer] at h
  split at h
  · cases h
  · rename_i dma hm
    cases h
    exact ⟨dma, hm, rfl⟩

section Accepted

variable {dev : Device} {s : IoSys} {j : Nat} {D : Nat → BitVec 64} {x y : GpuSide} {dma : NvmDma}
  {len : Nat} {a : IoArgs}

/-- The two ways of making a call, both accepted. The registered buffer gives byte
`bufPtr_base + bufPtr_offset + i`; mapped on the fly, the start of the transfer is rounded down to
64 KiB. -/
theorem both_ways (g : Geometry s.hs) (hb : 2 ≤ s.hs.blockSize) (hdev : dev.Completes s.hs.spins)
    (hready : s.Ready) (hj : j ≤ 16) (hpage : s.hs.ctrl.pageSize = 2 ^ j) (hx : x.Gives D j)
    (hy : y.Gives D j) (hreg : x.map a.base len = .ok dma) (hbase : a.base % GPU_PAGE_SIZE = 0)
    (hrange : a.base + a.bufOffset.toNat + a.size ≤ 2 ^ 64) (hv : a.Valid s.hs)
    (hacc : ∃ b, ioBuffer s.hs (some dma) y.map a = .ok b)
    (hacc' : ∃ b, ioBuffer s.hs none y.map a = .ok b) :
    ∃ listAddr ds ds', Submits dev s ⟨some dma, y.map, a⟩ listAddr ds ∧
      Submits dev s ⟨none, y.map, a⟩ listAddr ds' ∧ CoversOnce s a ds ∧ CoversOnce s a ds' ∧
      PairsWith s D a (a.base + a.bufOffset.toNat) listAddr ds ∧
      PairsWith s D a ((a.base + a.bufOffset.toNat) / GPU_PAGE_SIZE * GPU_PAGE_SIZE) listAddr
        ds' := by
  obtain ⟨q, hq, -⟩ := hready.next
  have hG : GPU_PAGE_SIZE = 65536 := by decide
  have hple : 2 ^ j ≤ 65536 := Nat.pow_le_pow_right (n := 2) (by decide) hj
  have hp : 0 < 2 ^ j := Nat.two_pow_pos j
  have hsz := a.size_lt
  have hpos := hv.size_pos
  -- the handle made for the call
  obtain ⟨b', hbuf'⟩ := hacc'
  have hptr : u64 (a.base + a.bufOffset.toNat) = a.base + a.bufOffset.toNat := u64_of_lt (by omega)
  obtain ⟨dma', hmap', rfl⟩ := ioBuffer_fly hbuf'
  rw [hptr] at hmap'
  obtain ⟨hlarge, haddr'⟩ := hy.map_ok hj (by omega) hmap'
  obtain ⟨hnowrap, hroom⟩ := hlarge hsz
  have hceil : (a.size + 2 ^ j - 1) / 2 ^ j ≤ dma'.ioaddrs.length := by
    rw [Nat.div_le_iff_le_mul_add_pred hp]
    rw [Nat.mul_comm] at hroom
    omega
  -- the registered handle
  obtain ⟨b, hbuf⟩ := hacc
  obtain ⟨rfl, hoff, hlen⟩ := ioBuffer_registered hbuf
  obtain ⟨-, haddr⟩ := hx.map_ok hj a.base_lt hreg
  have hbo := a.bufOffset_lt
  have hup : u64 (a.size + 2 ^ j - 1) = a.size + 2 ^ j - 1 := u64_of_lt (by omega)
  have hsum : a.bufOffset.toNat / 2 ^ j + (a.size + 2 ^ j - 1) / 2 ^ j < 2 ^ 64 := by
    have h1 : (a.size + 2 ^ j - 1) / 2 ^ j ≤ a.size :=
      (Nat.div_le_iff_le_mul_add_pred hp).mpr (by have := Nat.le_mul_of_pos_left a.size hp; omega)
    have h2 : a.bufOffset.toNat / 2 ^ j ≤ a.bufOffset.toNat := Nat.div_le_self _ _
    have h3 : 0 < a.base := Nat.pos_of_ne_zero hv.base_pos
    omega
  rw [hpage, hup, u64_of_lt hsum] at hlen
  obtain ⟨ds, hs, hc, hpw⟩ := call_on_gpu (c := ⟨some dma, y.map, a⟩) g hb hdev hready hv hq hbuf
    (by rw [hpage]; exact hlen) (by rw [hpage]; exact haddr)
  obtain ⟨ds', hs', hc', hpw'⟩ := call_on_gpu (c := ⟨none, y.map, a⟩) g hb hdev hready hv hq hbuf'
    (by rw [hpage, Nat.zero_add]; exact hceil) (by rw [hpage]; exact haddr')
  rw [Nat.div_mul_cancel (Nat.dvd_of_mod_eq_zero hbase),
    Nat.div_mul_cancel (Nat.dvd_of_mod_eq_zero hoff)] at hpw
  rw [Nat.zero_mul, Nat.add_zero] at hpw'
  exact ⟨_, ds, ds', hs, hs', hc, hc', hpw, hpw'⟩

/-- The addresses of the two calls agree exactly when the rounding changes nothing. -/
theorem pairs_iff {v : Nat} {listAddr : BitVec 64} {ds : List Post} (hpos : a.size ≠ 0)
    (hc : CoversOnce s a ds)
    (h : PairsWith s D a (v / GPU_PAGE_SIZE * GPU_PAGE_SIZE) listAddr ds) :
    PairsWith s D a v listAddr ds ↔ v % GPU_PAGE_SIZE = 0 := by
  constructor
  · intro h'
    have h0 : 0 < a.size := Nat.pos_of_ne_zero hpos
    obtain ⟨n, ⟨d, hd, hcov⟩, -⟩ := hc 0 h0
    have hm := List.mem_of_getElem? hd
    have h1 := h 0 h0 d hm hcov
    rw [h' 0 h0 d hm hcov, Nat.add_zero, Nat.add_zero] at h1
    exact gpuAddr_inj_page (Option.some.inj h1).symm
  · intro hz
    rw [Nat.div_mul_cancel (Nat.dvd_of_mod_eq_zero hz)] at h
    exact h

end Accepted

/-- A call on GPU memory made with its buffer registered and made without, from the same state after
any number of calls, with a controller that completes every command. The buffer starts at a 64 KiB
boundary; `bufPtr_offset` is a multiple of the controller's page size (of at most 64 KiB) because the
registered call is accepted. The registered call pairs disk byte `file_offset + i` with GPU virtual
byte `bufPtr_base + bufPtr_offset + i`; the other one does exactly when `bufPtr_offset` is a multiple
of 64 KiB. -/
theorem on_the_fly_exact (dev : Device) (hs₀ : HandleState) (t₀ : Nat) (h₀ : hs₀.Fresh)
    (hdev : dev.Completes hs₀.spins) (g : Geometry hs₀) (hb : 2 ≤ hs₀.blockSize) (j : Nat)
    (hj : j ≤ 16) (hpage : hs₀.ctrl.pageSize = 2 ^ j) (tr : List (IoSys × IoStep)) (s : IoSys)
    (hr : Run (IoSys.step dev) ⟨hs₀, t₀⟩ tr s) (D : Nat → BitVec 64) (x y : GpuSide)
    (hx : x.Gives D j) (hy : y.Gives D j) (a : IoArgs) (len : Nat) (dma : NvmDma)
    (hreg : x.map a.base len = .ok dma) (hbase : a.base % GPU_PAGE_SIZE = 0)
    (hrange : a.base + a.bufOffset.toNat + a.size ≤ 2 ^ 64) (hv : a.Valid s.hs)
    (hacc : ∃ b, ioBuffer s.hs (some dma) y.map a = .ok b)
    (hacc' : ∃ b, ioBuffer s.hs none y.map a = .ok b) :
    ∃ listAddr ds ds', Submits dev s ⟨some dma, y.map, a⟩ listAddr ds ∧
      Submits dev s ⟨none, y.map, a⟩ listAddr ds' ∧ CoversOnce s a ds ∧ CoversOnce s a ds' ∧
      ((PairsWith s D a (a.base + a.bufOffset.toNat) listAddr ds ∧
          PairsWith s D a (a.base + a.bufOffset.toNat) listAddr ds') ↔
        a.bufOffset.toNat % GPU_PAGE_SIZE = 0) := by
  obtain ⟨hready, hsame⟩ := IoSys.run_ready (.of_fresh h₀ t₀) hdev hr
  have hctrl := hsame.1
  obtain ⟨listAddr, ds, ds', hs, hs', hc, hc', hpw, hpw'⟩ := both_ways (g.of_same hsame)
    (by rw [hsame.2.1]; exact hb) (by rw [HandleState.spins, hctrl]; exact hdev) hready hj
    (by rw [hctrl]; exact hpage) hx hy hreg hbase hrange hv hacc hacc'
  have hiff := pairs_iff hv.size_pos hc' hpw'
  have hmod : (a.base + a.bufOffset.toNat) % GPU_PAGE_SIZE = a.bufOffset.toNat % GPU_PAGE_SIZE := by
    rw [Nat.add_mod, hbase, Nat.zero_add, Nat.mod_mod]
  rw [hmod] at hiff
  exact ⟨listAddr, ds, ds', hs, hs', hc, hc', fun h => hiff.mp h.2, fun h => ⟨hpw, hiff.mpr h⟩⟩

/-- GPU page `g` has the DMA address `0x80000000 + 65536 g`. -/
def sampleDmaAddr (g : Nat) : BitVec 64 := BitVec.ofNat 64 (0x80000000 + g * 65536)

def sampleSide : GpuSide :=
  ⟨4096, .init 1, ⟨true, true, true, true, true⟩,
    ⟨true, true, true, .ok, fun _ => .ok sampleDmaAddr⟩, true, true, sampleMapper⟩

theorem sampleSide_gives : sampleSide.Gives sampleDmaAddr 12 :=
  ⟨fun _ => rfl, rfl, by decide, rfl⟩

theorem sampleHandle_geometry : Geometry sampleHandle :=
  geometry_x86 (k := 9) (le_refl 9) rfl rfl (.inl rfl) (by decide)

/-- A read of one block into a buffer at `0x200000`, at a page-aligned offset. -/
def readAt (off : Nat) (h : off < 2 ^ 63) : IoArgs :=
  ⟨0x200000, 512, 0, off, NVM_IO_READ, sampleBase_lt, sampleSize_lt, zeroOffset_lt,
    by exact_mod_cast h⟩

theorem on_the_fly_exact_second_page :
    ∃ listAddr ds ds' dma, sampleSide.map 0x200000 131072 = .ok dma ∧
      Submits Device.prompt ⟨sampleHandle, 0⟩ ⟨some dma, sampleSide.map, readAt 65536 (by decide)⟩
        listAddr ds ∧
      Submits Device.prompt ⟨sampleHandle, 0⟩ ⟨none, sampleSide.map, readAt 65536 (by decide)⟩
        listAddr ds' ∧
      PairsWith ⟨sampleHandle, 0⟩ sampleDmaAddr (readAt 65536 (by decide)) 0x210000 listAddr ds' := by
  have hreg : sampleSide.map 0x200000 131072 = .ok _ := rfl
  obtain ⟨l, ds, ds', hs, hs', -, -, hiff⟩ := on_the_fly_exact Device.prompt sampleHandle 0
    sampleHandle_fresh (Device.prompt_completes _) sampleHandle_geometry (by decide) 12 (by decide)
    rfl [] ⟨sampleHandle, 0⟩ .refl sampleDmaAddr sampleSide sampleSide sampleSide_gives
    sampleSide_gives (readAt 65536 (by decide)) 131072 _ hreg (by decide) (by decide)
    (by constructor <;> decide) ⟨_, rfl⟩ ⟨_, rfl⟩
  exact ⟨l, ds, ds', _, hreg, hs, hs', (hiff.mpr (by decide)).2⟩

/-- At an offset of 4096 bytes the call without registration reads into the first page of the
buffer instead of the second. -/
theorem on_the_fly_offset :
    ¬ ∀ (dev : Device) (hs₀ : HandleState) (t₀ : Nat), hs₀.Fresh → dev.Completes hs₀.spins →
      Geometry hs₀ → 2 ≤ hs₀.blockSize → ∀ (j : Nat), j ≤ 16 → hs₀.ctrl.pageSize = 2 ^ j →
      ∀ (tr : List (IoSys × IoStep)) (s : IoSys), Run (IoSys.step dev) ⟨hs₀, t₀⟩ tr s →
      ∀ (D : Nat → BitVec 64) (x y : GpuSide), x.Gives D j → y.Gives D j →
      ∀ (a : IoArgs) (len : Nat) (dma : NvmDma), x.map a.base len = .ok dma →
      a.base % GPU_PAGE_SIZE = 0 → a.bufOffset.toNat + a.size ≤ len →
      a.base + a.bufOffset.toNat + a.size ≤ 2 ^ 64 → a.Valid s.hs →
      (∃ b, ioBuffer s.hs (some dma) y.map a = .ok b) →
      (∃ b, ioBuffer s.hs none y.map a = .ok b) →
      ∃ listAddr ds ds', Submits dev s ⟨some dma, y.map, a⟩ listAddr ds ∧
        Submits dev s ⟨none, y.map, a⟩ listAddr ds' ∧
        PairsWith s D a (a.base + a.bufOffset.toNat) listAddr ds ∧
        PairsWith s D a (a.base + a.bufOffset.toNat) listAddr ds' := by
  intro h
  have hreg : sampleSide.map 0x200000 65536 = .ok _ := rfl
  have hv : (readAt 4096 (by decide)).Valid sampleHandle := by constructor <;> decide
  obtain ⟨l, ds, ds', -, hs', -, hp⟩ := h Device.prompt sampleHandle 0 sampleHandle_fresh
    (Device.prompt_completes _) sampleHandle_geometry (by decide) 12 (by decide) rfl []
    ⟨sampleHandle, 0⟩ .refl sampleDmaAddr sampleSide sampleSide sampleSide_gives sampleSide_gives
    (readAt 4096 (by decide)) 65536 _ hreg (by decide) (by decide) (by decide) hv ⟨_, rfl⟩ ⟨_, rfl⟩
  obtain ⟨l₁, _, ds₁', -, hs₁', -, hc', -, hpw'⟩ := both_ways (a := readAt 4096 (by decide))
    sampleHandle_geometry (by decide) (Device.prompt_completes _) (.of_fresh sampleHandle_fresh 0)
    (by decide) rfl sampleSide_gives sampleSide_gives hreg (by decide) (by decide) hv ⟨_, rfl⟩
    ⟨_, rfl⟩
  obtain ⟨rfl, rfl⟩ := hs₁'.unique hs'
  exact absurd ((pairs_iff hv.size_pos hc' hpw').mp hp) (by decide)

end UGDS
