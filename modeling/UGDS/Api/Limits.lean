import UGDS.Api.Bounds

/-!
# UGDS.Api.Limits

Whether the commands of a transfer fit the 16-bit block count and the controller's transfer limit.
`uGDSHandleRegister` takes the block size and the limit from the Identify data, the page size is the
host's, and `do_io` makes its chunks from the three: none of them is checked against the others.

* `call_reqs`: the requests and commands of a call in any reachable state.
* `first_fits_iff`: whether the first chunk fits, in the sizes of the handle and of the transfer.
* `io_fits`: all commands of a call fit exactly if its first chunk does.
* `io_exceeds_mdts`: with pages of 64 KiB and a limit of 8 KiB, a read of one page is one command.
-/

namespace UGDS

open Nvm Lib Drv

/-- `2^MDTS * 2^(12 + MPSMIN)`, as the controller means it. -/
def RegCall.mdtsLimit (reg : RegCall) : Nat := 2 ^ reg.mdts * 2 ^ (12 + capMpsMin reg.cap)

/-- The command for request `r` has the blocks of the request, and the request is within the
controller's limit. -/
structure Fits (hs : HandleState) (reg : RegCall) (r : Req) (cmd : NvmCmd) : Prop where
  pos : 1 ≤ r.chunk / hs.blockSize
  le : r.chunk / hs.blockSize ≤ 65536
  decodes : cmd.nBlocks = r.chunk / hs.blockSize
  limit : reg.mdts ≠ 0 → r.chunk ≤ reg.mdtsLimit

/-- What a transfer of `size` bytes has to meet. The least of its size, of the limit in the handle (or
its default) raised to a page, and of what one list page can describe, has at most 65536 blocks. And
a page or the transfer is within the controller's limit. -/
def FirstFits (hs : HandleState) (reg : RegCall) (size : Nat) : Prop :=
  let page := hs.ctrl.pageSize
  let limit := if hs.maxTransferSize = 0 then 128 * 1024 else hs.maxTransferSize
  min size (min (max limit page) ((page / 8 + 1) * page)) / hs.blockSize ≤ 65536 ∧
    (reg.mdts ≠ 0 → page ≤ reg.mdtsLimit ∨ size ≤ reg.mdtsLimit)

section

variable {hs : HandleState} {reg : RegCall} {dma : NvmDma} {opcode : BitVec 8} {prpAddr : BitVec 64}

/-- The limit is broken only where `max_xfer` was raised to a page. A product that wraps to 0 stands
for no limit of `do_io`'s own but the default, which is far below it. -/
theorem chunk_le_limit (hb : hs.BuiltBy reg) (hp : hs.ctrl.pageSize ≤ reg.mdtsLimit) (size : Nat) :
    hs.chunkSize size ≤ reg.mdtsLimit := by
  have hmts : hs.maxTransferSize = reg.mdtsLimit % 2 ^ 64 := by
    have h := hb.limit
    simp only [maxDataSize] at h
    split at h
    · exact (Option.some.inj h).symm
    · cases h
  have hpos : 0 < reg.mdtsLimit := Nat.mul_pos (Nat.two_pow_pos _) (Nat.two_pow_pos _)
  have hmod : reg.mdtsLimit % 2 ^ 64 ≤ reg.mdtsLimit := Nat.mod_le _ _
  have hxfer : hs.maxXfer ≤ reg.mdtsLimit := by
    generalize reg.mdtsLimit = limit at *
    simp only [HandleState.maxXfer, hmts]
    split <;> split <;> split <;> omega
  calc hs.chunkSize size ≤ min size hs.maxXfer := Nat.div_mul_le_self _ _
    _ ≤ reg.mdtsLimit := (Nat.min_le_right _ _).trans hxfer

/-- `prp_max` does not wrap around, so `max_xfer` is the limit or its default between its two
bounds. -/
theorem maxXfer_eq (hb : hs.BuiltBy reg) {j : Nat} (hpage : hs.ctrl.pageSize = 2 ^ j) :
    hs.maxXfer = min
      (max (if hs.maxTransferSize = 0 then 128 * 1024 else hs.maxTransferSize) hs.ctrl.pageSize)
      ((hs.ctrl.pageSize / 8 + 1) * hs.ctrl.pageSize) := by
  have hle : hs.ctrl.pageSize ≤ 2 ^ 27 := by
    rw [hpage]
    exact Nat.pow_le_pow_right (by decide) (hb.pow hpage).2.1
  have hmul := Nat.mul_le_mul
    (Nat.add_le_add_right (Nat.div_le_div_right hle : hs.ctrl.pageSize / 8 ≤ _) 1) hle
  simp only [HandleState.maxXfer]
  rw [u64_of_lt (by omega)]
  generalize (if hs.maxTransferSize = 0 then _ else _) = limit
  generalize (hs.ctrl.pageSize / 8 + 1) * hs.ctrl.pageSize = prpMax
  split <;> split <;> omega

/-- The first chunk is the whole transfer, or it has whole pages: either way it is within the
controller's limit only if the transfer or a page is. -/
theorem first_fits_iff (hb : hs.BuiltBy reg) {j : Nat} (hpage : hs.ctrl.pageSize = 2 ^ j) {size : Nat}
    (hsize : size ≠ 0) (hdvd : hs.blockSize ∣ size) (hne : hs.chunkSize size ≠ 0) :
    hs.chunkSize size / hs.blockSize ≤ 65536 ∧
      (reg.mdts ≠ 0 → hs.chunkSize size ≤ reg.mdtsLimit) ↔ FirstFits hs reg size := by
  have hfits : hs.blockSize ≤ hs.maxXfer := by
    by_contra hlt
    exact hne (chunkSize_large (Nat.lt_of_not_le hlt) size)
  obtain ⟨-, -, b, hpow⟩ := hb.pow hpage
  have g := paged_of_pow (hpow hfits) hfits
  obtain ⟨hpos, hle, -, -, hwhole⟩ := g.chunk (Nat.pos_of_ne_zero hsize) hdvd
  have hblocks : hs.chunkSize size / hs.blockSize = min size hs.maxXfer / hs.blockSize :=
    Nat.mul_div_cancel _ g.block_pos
  rw [hblocks, maxXfer_eq hb hpage]
  refine and_congr_right fun _ => imp_congr_right fun _ => ⟨fun hlim => ?_, fun hlim => ?_⟩
  · rcases hwhole with he | hd
    · exact .inr (he ▸ hlim)
    · exact .inl ((Nat.le_of_dvd hpos hd).trans hlim)
  · rcases hlim with hp | hs'
    · exact chunk_le_limit hb hp size
    · exact hle.trans hs'

/-- The block count has at least one block, and up to 65536 of them are encoded faithfully. -/
theorem fits_iff {r : Req} {x : NvmCmd × (Nat → BitVec 64)} (hx : Made hs dma opcode prpAddr r x)
    (hpos : r.chunk ≠ 0) (hdvd : hs.blockSize ∣ r.chunk) :
    Fits hs reg r x.1 ↔
      r.chunk / hs.blockSize ≤ 65536 ∧ (reg.mdts ≠ 0 → r.chunk ≤ reg.mdtsLimit) := by
  have h1 : 1 ≤ r.chunk / hs.blockSize :=
    Nat.div_pos (Nat.le_of_dvd (Nat.pos_of_ne_zero hpos) hdvd)
      (Nat.pos_of_dvd_of_pos hdvd (Nat.pos_of_ne_zero hpos))
  constructor
  · exact fun h => ⟨h.le, h.limit⟩
  · rintro ⟨hle, hlim⟩
    obtain ⟨cid, prp1, prp2, prp, hcmd, -⟩ := hx
    refine ⟨h1, hle, ?_, hlim⟩
    rw [hcmd, rwCmd, buildRw_nBlocks_ofNat _ _ _ _ _ _ h1 hle]

/-- The first chunk decides: the later ones are no larger. -/
theorem all_fit_iff (hb : hs.BuiltBy reg) {j : Nat} (hpage : hs.ctrl.pageSize = 2 ^ j)
    {size fuel lba page : Nat} (hsize : size ≠ 0) (hdvd : hs.blockSize ∣ size) {reqs : List Req}
    {new : List (NvmCmd × (Nat → BitVec 64))} (hpre : reqs <+: ioReqs hs size fuel 0 lba page)
    (hall : List.Forall₂ (Made hs dma opcode prpAddr) reqs new) (hne : new ≠ []) :
    List.Forall₂ (fun r x => Fits hs reg r x.1) reqs new ↔ FirstFits hs reg size := by
  have hchunk (r : Req) (hr : r ∈ reqs) := ioReqs_chunk_le (hpre.subset hr)
  cases hall with
  | nil => exact absurd rfl hne
  | @cons r x reqs new hx hall =>
    have hr := ioReqs_first hpre
    obtain ⟨h1, h2, -⟩ := hchunk r List.mem_cons_self
    rw [← first_fits_iff hb hpage hsize hdvd (hr ▸ h1)]
    constructor
    · intro h
      rw [← hr]
      exact (fits_iff hx h1 h2).mp (List.forall₂_cons.mp h).1
    · rintro ⟨hle, hlim⟩
      refine ((List.forall₂_and_left _ _).mpr ⟨hchunk, .cons hx hall⟩).imp ?_
      rintro r x ⟨⟨h1, h2, h3⟩, hx⟩
      refine (fits_iff hx h1 h2).mpr ⟨?_, fun hm => h3.trans (hlim hm)⟩
      exact (Nat.div_le_div_right h3).trans hle

end

/-- A call in any reachable state: its requests and its commands. A call with a command has passed the
checks on its arguments. -/
theorem call_reqs {dev : Device} {j nCtrls : Nat} {tr : List (World × Label)} {w : World}
    (hrun : Run (World.step dev (2 ^ j)) (.init nCtrls) tr w) {h : Nat} {hs : HandleState}
    (hf : w.find h = some hs) {env : World.DeviceMapEnv} {current : Task} {a : IoArgs} {r : IoResult}
    (hr : w.callIo dev (2 ^ j) env current hs a = some r) {q q' : IOQueuePair}
    (hq : hs.qps[hs.qpIdx]? = some q) (hq' : r.hs.qps[hs.qpIdx]? = some q') :
    ∃ dma fuel lba page reqs new, reqs <+: ioReqs hs a.size fuel 0 lba page ∧
      q'.pair.cmds = q.pair.cmds ++ new.map Prod.fst ∧
      List.Forall₂ (Made hs dma a.opcode q.pair.prpAddr) reqs new ∧ (new ≠ [] → a.Valid hs) := by
  have hwf : w.Wf := World.run_inv World.Wf (fun _ _ => True) (fun _ _ _ _ hi _ he => hi.effect he)
    hrun (World.wf_init nCtrls) fun _ _ => trivial
  rcases doIo_cases hr with ⟨-, -, he, -⟩ |
    ⟨dma, fly, start, q₁, ret, t', pair, hv, -, hq₁, hl, rfl⟩
  · rw [he, hq] at hq'
    cases hq'
    exact ⟨⟨0, true, true, 0, [], 0⟩, 0, 0, 0, [], [], List.nil_prefix, by simp, .nil,
      fun h => absurd rfl h⟩
  · rw [hq] at hq₁
    cases hq₁
    rw [List.getElem?_set_self (List.getElem?_eq_some_iff.mp hq).1] at hq'
    cases hq'
    obtain ⟨n, hn⟩ := (hwf.handles hs (World.find_mem hf).1).pairs q (List.mem_of_getElem? hq)
    obtain ⟨reqs, new, hpre, hc, -, hall⟩ := ioLoop_reqs hn hl
    exact ⟨dma, _, _, _, reqs, new, hpre, hc, hall, fun _ => hv⟩

/-- A transfer on a handle built by registration `reg`, in any reachable state. Its commands `new`
stand for the requests `reqs`. If there is any, all of them fit exactly if `FirstFits`: a condition on
the sizes of the handle, the size of the transfer and the limit given by MDTS. -/
theorem io_fits {dev : Device} {j nCtrls : Nat} {tr : List (World × Label)} {w : World}
    (hrun : Run (World.step dev (2 ^ j)) (.init nCtrls) tr w) {h : Nat} {hs : HandleState}
    (hf : w.find h = some hs) {env : World.DeviceMapEnv} {current : Task} {a : IoArgs} {r : IoResult}
    (hr : w.callIo dev (2 ^ j) env current hs a = some r) {q q' : IOQueuePair}
    (hq : hs.qps[hs.qpIdx]? = some q) (hq' : r.hs.qps[hs.qpIdx]? = some q') :
    (∃ reg, hs.BuiltBy reg) ∧
      ∃ dma fuel lba page reqs new, reqs <+: ioReqs hs a.size fuel 0 lba page ∧
        q'.pair.cmds = q.pair.cmds ++ new.map Prod.fst ∧
        List.Forall₂ (Made hs dma a.opcode q.pair.prpAddr) reqs new ∧
        ∀ reg, hs.BuiltBy reg → new ≠ [] →
          (List.Forall₂ (fun r x => Fits hs reg r x.1) reqs new ↔ FirstFits hs reg a.size) := by
  have hwf : w.Wf := World.run_inv World.Wf (fun _ _ => True) (fun _ _ _ _ hi _ he => hi.effect he)
    hrun (World.wf_init nCtrls) fun _ _ => trivial
  have hmem := (World.find_mem hf).1
  have hpage := (World.sized_of_run hrun).pages hs hmem
  obtain ⟨dma, fuel, lba, page, reqs, new, hpre, hc, hall, hv⟩ := call_reqs hrun hf hr hq hq'
  refine ⟨(hwf.handles hs hmem).built, dma, fuel, lba, page, reqs, new, hpre, hc, hall, ?_⟩
  intro reg hb hne
  exact all_fit_iff hb hpage (hv hne).size_pos (Nat.dvd_of_mod_eq_zero (hv hne).size_block) hpre hall
    hne

/-- Whether a transfer on handle `h`, which has these sizes, submits a command. -/
def World.trySubmits (w : World) (P h : Nat) (a : IoArgs) (ctrl : NvmCtrl) (limit block : Nat) : Bool :=
  (w.tryIo P h a).any fun x =>
    (x.1.ctrl = ctrl && x.1.maxTransferSize = limit && x.1.blockSize = block) &&
      (x.1.qps[x.1.qpIdx]?).any fun q => (x.2.1.hs.qps[x.1.qpIdx]?).any fun q' =>
        q'.pair.cmds.length ≠ q.pair.cmds.length

theorem World.trySubmits_spec {w : World} {P h : Nat} {a : IoArgs} {ctrl : NvmCtrl}
    {limit block : Nat} (hw : w.trySubmits P h a ctrl limit block = true) :
    ∃ hs r q q', w.find h = some hs ∧ w.callIo .prompt P .ok ⟨0, 0⟩ hs a = some r ∧
      (hs.ctrl = ctrl ∧ hs.maxTransferSize = limit ∧ hs.blockSize = block) ∧
      hs.qps[hs.qpIdx]? = some q ∧ r.hs.qps[hs.qpIdx]? = some q' ∧
      ∀ new, q'.pair.cmds = q.pair.cmds ++ new → new ≠ [] := by
  obtain ⟨⟨hs, r, dma⟩, he, hw⟩ := (Option.any_eq_true _ _).mp hw
  obtain ⟨hf, hr, -⟩ := World.tryIo_some he
  obtain ⟨hgeo, hw⟩ := Bool.and_eq_true_iff.mp hw
  obtain ⟨q, hq, hw⟩ := (Option.any_eq_true _ _).mp hw
  obtain ⟨q', hq', hw⟩ := (Option.any_eq_true _ _).mp hw
  simp only [Bool.and_eq_true, decide_eq_true_eq, and_assoc] at hgeo hw
  refine ⟨hs, r, q, q', hf, hr, hgeo, hq, hq', ?_⟩
  rintro new hc rfl
  exact hw (by rw [hc, List.append_nil])

theorem builtBy_of_sizes {hs : HandleState} {reg : RegCall} {ctrl : NvmCtrl} {limit block : Nat}
    (hs' : hs.ctrl = ctrl ∧ hs.maxTransferSize = limit ∧ hs.blockSize = block)
    (h : nvmCtrlInit reg.alloc ctrl.pageSize reg.cap = .ok ctrl ∧
      maxDataSize reg.cap reg.mdts = some limit ∧ lbaDataSize reg.lbads = some block) :
    hs.BuiltBy reg := by
  obtain ⟨rfl, rfl, rfl⟩ := hs'
  exact ⟨h.1, h.2.1, h.2.2⟩

/-- A read of one page of 4 KiB in blocks of 512 bytes, with a limit of 128 KiB: its command fits. -/
theorem io_fits_page :
    ∃ tr w hs r q q', Run (World.step .prompt (2 ^ 12)) (.init 1) tr w ∧ w.find 0 = some hs ∧
      w.callIo .prompt (2 ^ 12) .ok ⟨0, 0⟩ hs (.page 0x200000) = some r ∧
      hs.qps[hs.qpIdx]? = some q ∧ r.hs.qps[hs.qpIdx]? = some q' ∧ hs.BuiltBy (.ok 0) ∧
      ∃ reqs new, q'.pair.cmds = q.pair.cmds ++ new.map Prod.fst ∧ new ≠ [] ∧
        List.Forall₂ (fun (r : Req) (x : NvmCmd × (Nat → BitVec 64)) => Fits hs (.ok 0) r x.1) reqs
          new := by
  obtain ⟨tr, w, hrun, -, hw⟩ := follow_run (World.step .prompt (2 ^ 12)) (fun _ _ => true) (.init 1)
    [.driverOpen, .handleRegister (.ok 0)]
    (fun w => w.trySubmits (2 ^ 12) 0 (.page 0x200000) ⟨4096, 0, 0, 1024⟩ 131072 512)
    (by decide +kernel)
  obtain ⟨hs, r, q, q', hf, hr, ⟨hctrl, hmts, hblock⟩, hq, hq', hsub⟩ := World.trySubmits_spec hw
  have hb : hs.BuiltBy (.ok 0) := builtBy_of_sizes ⟨hctrl, hmts, hblock⟩ (by decide +kernel)
  obtain ⟨-, dma', fuel, lba, page, reqs, new, -, hc, -, hfits⟩ := io_fits hrun hf hr hq hq'
  have hne : new ≠ [] := fun h => hsub _ hc (by rw [h]; rfl)
  refine ⟨tr, w, hs, r, q, q', hrun, hf, hr, hq, hq', hb, reqs, new, hc, hne, (hfits _ hb hne).mpr ?_⟩
  simp only [FirstFits, hctrl, hmts, hblock]
  decide

/-- A device that allows pages of 64 KiB and transfers of 8 KiB. -/
def RegCall.small : RegCall := { RegCall.ok 0 with cap := 0x0040000000000fff#64, mdts := 1 }

/-- `max_xfer` is raised from 8 KiB to a page of 64 KiB, and the read is one command of 128
blocks. -/
theorem io_exceeds_mdts :
    ¬ ∀ (dev : Device) (j nCtrls : Nat) (tr : List (World × Label)) (w : World),
      Run (World.step dev (2 ^ j)) (.init nCtrls) tr w →
      ∀ (h : Nat) (hs : HandleState), w.find h = some hs → ∀ reg, hs.BuiltBy reg →
      ∀ (env : World.DeviceMapEnv) (current : Task) (a : IoArgs) (r : IoResult),
        w.callIo dev (2 ^ j) env current hs a = some r →
      ∀ q q', hs.qps[hs.qpIdx]? = some q → r.hs.qps[hs.qpIdx]? = some q' →
      ∀ dma fuel lba page reqs new, reqs <+: ioReqs hs a.size fuel 0 lba page →
        q'.pair.cmds = q.pair.cmds ++ new.map Prod.fst →
        List.Forall₂ (Made hs dma a.opcode q.pair.prpAddr) reqs new →
        List.Forall₂ (fun r x => Fits hs reg r x.1) reqs new := by
  intro hall
  obtain ⟨tr, w, hrun, -, hw⟩ := follow_run (World.step .prompt (2 ^ 16)) (fun _ _ => true) (.init 1)
    [.driverOpen, .handleRegister .small]
    (fun w => w.trySubmits (2 ^ 16) 0 .large ⟨65536, 0, 0, 4096⟩ 8192 512) (by decide +kernel)
  obtain ⟨hs, r, q, q', hf, hr, ⟨hctrl, hmts, hblock⟩, hq, hq', hsub⟩ := World.trySubmits_spec hw
  have hb : hs.BuiltBy .small := builtBy_of_sizes ⟨hctrl, hmts, hblock⟩ (by decide +kernel)
  obtain ⟨dma', fuel, lba, page, reqs, new, hpre, hc, hmade, hv⟩ := call_reqs hrun hf hr hq hq'
  have hne : new ≠ [] := fun h => hsub _ hc (by rw [h]; rfl)
  have hfits := hall _ _ _ tr w hrun 0 hs hf .small hb _ _ _ r hr q q' hq hq' dma' fuel lba page
    reqs new hpre hc hmade
  have hpage : hs.ctrl.pageSize = 2 ^ 16 := by
    rw [hctrl]
    rfl
  obtain ⟨-, hlim⟩ := (all_fit_iff hb hpage (hv hne).size_pos
    (Nat.dvd_of_mod_eq_zero (hv hne).size_block) hpre hmade hne).mp hfits
  rw [hctrl] at hlim
  exact absurd (hlim (by decide)) (by decide)

end UGDS
