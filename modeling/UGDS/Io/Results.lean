import UGDS.Io.Bounds
import UGDS.Io.Threads

/-!
# UGDS.Io.Results

What `do_io` (`ugds_io.cpp`) can return, for any block size, page size and transfer limit.

With sizes that do not go together, a turn can index behind the end of `ioaddrs`, and then the data
pointer is what memory holds there. `doIoOver` has these words as a parameter, so that a call has a
result in that case as well.

* `ioLoop_returns`: the loop ends.
* `ioLoop_results`: with everything transferred, or with an error; with `-EINVAL` only before the
  first command.
* `do_io_results`: the same for the whole call, and what it has mapped it has unmapped.
-/

namespace UGDS

open Nvm Lib

/-- The handle with the words of memory after its address list. -/
def Nvm.NvmDma.followedBy (dma : NvmDma) (beyond : List (BitVec 64)) : NvmDma :=
  { dma with ioaddrs := dma.ioaddrs ++ beyond }

/-- `do_io` with the words `beyond` after the address list of the buffer. The check of the page
count uses the list itself. -/
def doIoOver (beyond : List (BitVec 64)) (dev : Device) (t : Nat) (hs : HandleState) (c : IoCall) :
    Option IoResult :=
  match ioAdmit hs c with
  | .error e => some ⟨-e.code, t, hs, none, none⟩
  | .ok (dma, onTheFly, start) =>
    if hs.numQps = 0 then none
    else
      match hs.qps[hs.qpIdx]? with
      | none => none
      | some qp =>
        match ioLoop dev hs (dma.followedBy beyond) c.args.opcode c.args.size
            (c.args.size / hs.blockSize) 0 (c.args.fileOffset.toNat / hs.blockSize) start t
            qp.pair with
        | none => none
        | some (ret, t, pair) =>
          let hs' := { hs with
            rrCounter := u32 (hs.rrCounter + 1)
            qps := hs.qps.set hs.qpIdx { qp with pair := pair } }
          some ⟨ret, t, hs', some dma, if onTheFly then some dma else none⟩

/-- The mapping that the call has `nvm_dma_map_device` make. -/
def IoCall.mapped (hs : HandleState) (c : IoCall) : Option NvmDma :=
  if c.args.Valid hs ∧ c.reg = none then
    (c.mapDevice (u64 (c.args.base + c.args.bufOffset.toNat)) c.args.size).toOption
  else none

theorem Nvm.NvmDma.followedBy_nil (dma : NvmDma) : dma.followedBy [] = dma := by
  simp [followedBy]

/-- Nothing after the list: the call as it is defined within the list. -/
theorem doIoOver_nil (dev : Device) (t : Nat) (hs : HandleState) (c : IoCall) :
    doIoOver [] dev t hs c = doIo dev t hs c.reg c.mapDevice c.args := by
  unfold doIoOver
  cases hadm : ioAdmit hs c with
  | error e => rw [doIo_refused hadm]
  | ok x =>
    obtain ⟨dma, fly, start⟩ := x
    obtain ⟨hv, hb⟩ := ioAdmit_ok hadm
    obtain ⟨h1, h2, h3⟩ := hv.checks
    cases hq : hs.qps[hs.qpIdx]? with
    | none =>
      simp only [doIo, if_neg h1, if_neg h2, if_neg hv.block_pos, if_neg h3, if_neg hv.page_pos, hb,
        hq]
    | some qp =>
      cases hl : ioLoop dev hs dma c.args.opcode c.args.size (c.args.size / hs.blockSize) 0
          (c.args.fileOffset.toNat / hs.blockSize) start t qp.pair <;>
        simp only [doIo, if_neg h1, if_neg h2, if_neg hv.block_pos, if_neg h3, if_neg hv.page_pos,
          hb, hq, NvmDma.followedBy_nil, hl]

/-! ## The loop -/

section Loop

variable {dev : Device} {hs : HandleState} {dma : NvmDma} {opcode : BitVec 8} {qp q : Qp}
  {n t t' size fuel bytesDone lba page : Nat} {ret : Int}

theorem chunkPages_pos (hs : HandleState) (chunk : Nat) : 1 ≤ hs.chunkPages chunk := by
  simp only [HandleState.chunkPages]
  split
  · exact Nat.le_refl 1
  · exact Nat.pos_of_ne_zero ‹_›

/-- A turn ends when its pages are in the list. -/
theorem ioChunk_returns (dev : Device) (opcode : BitVec 8) {chunk : Nat} (lba t : Nat)
    (h : qp.Inv n) (hpages : page + hs.chunkPages chunk ≤ dma.nIoaddrs) :
    ∃ x, ioChunk dev hs dma opcode chunk lba page t qp = some x := by
  unfold ioChunk
  rcases drainEnqueue_spec dev h hs.spins t with
    ⟨t₁, q₁, n₁, hd, -⟩ | ⟨t₁, q₁, n₁, slot, r, hd, -⟩
  · rw [hd]
    exact ⟨_, rfl⟩
  · obtain ⟨⟨prp1, prp2, prp⟩, hptr⟩ := (dataPtrs_defined_iff (chunkPages_pos hs chunk)
      q₁.prpAddr q₁.prp).mpr ((ioaddrIndices_lt_iff (chunkPages_pos hs chunk) _).mpr hpages)
    simp only [hd, ioIssue, hptr]
    split
    · exact ⟨_, rfl⟩
    · exact ⟨_, rfl⟩

/-- The loop ends when the list is long enough, whatever is in it. The turns' pages depend on the
sizes only, so one length serves every list and every device. -/
theorem ioLoop_returns (lba page : Nat) (hpos : 0 < hs.blockSize)
    (hb : hs.blockSize ∣ size - bytesDone) (hf : (size - bytesDone) / hs.blockSize ≤ fuel) :
    ∃ len, ∀ (dev : Device) (dma : NvmDma) (opcode : BitVec 8) (t : Nat) (qp : Qp) (n : Nat),
      len ≤ dma.nIoaddrs → qp.Inv n →
      ∃ x, ioLoop dev hs dma opcode size fuel bytesDone lba page t qp = some x := by
  induction fuel generalizing bytesDone lba page with
  | zero =>
    -- no whole block is left, so nothing is
    have hdone : size ≤ bytesDone := by
      have hlt := (Nat.div_eq_zero_iff_lt hpos).mp (Nat.le_zero.mp hf)
      have := Nat.eq_zero_of_dvd_of_lt hb hlt
      omega
    refine ⟨0, fun dev dma opcode t qp n _ _ => ?_⟩
    rw [ioLoop.eq_def, if_pos hdone]
    exact ⟨_, rfl⟩
  | succ fuel ih =>
    by_cases hc0 : hs.chunkSize (size - bytesDone) = 0
    · refine ⟨0, fun dev dma opcode t qp n _ _ => ?_⟩
      rw [ioLoop.eq_def]
      split
      · exact ⟨_, rfl⟩
      · simp only [if_pos hc0]
        exact ⟨_, rfl⟩
    · obtain ⟨hb', hf'⟩ := chunkSize_fuel hc0 hb hf
      rw [← Nat.sub_add_eq] at hb' hf'
      obtain ⟨len, hlen⟩ := ih (lba + hs.chunkSize (size - bytesDone) / hs.blockSize)
        (page + hs.chunkPages (hs.chunkSize (size - bytesDone))) hb' hf'
      refine ⟨max len (page + hs.chunkPages (hs.chunkSize (size - bytesDone))),
        fun dev dma opcode t qp n hl hi => ?_⟩
      obtain ⟨⟨ok, t₁, q₁⟩, hturn⟩ := ioChunk_returns dev opcode lba t hi
        ((le_max_right _ _).trans hl)
      rw [ioLoop.eq_def]
      split
      · exact ⟨_, rfl⟩
      · simp only [if_neg hc0, hturn]
        cases ok with
        | false => exact ⟨_, rfl⟩
        | true =>
          obtain ⟨⟨n₁, hi₁⟩, -⟩ := ioChunk_spec hi hturn
          exact hlen dev dma opcode t₁ q₁ n₁ ((le_max_left _ _).trans hl) hi₁

theorem chunkSize_pos {rem : Nat} (hfit : hs.blockSize ≤ hs.maxXfer) (hpos : 0 < hs.blockSize)
    (hrem : 0 < rem) (hb : hs.blockSize ∣ rem) : 0 < hs.chunkSize rem :=
  Nat.mul_pos (Nat.div_pos (le_min (Nat.le_of_dvd hrem hb) hfit) hpos) hpos

/-- When a block fits the limit, the loop does not end with `-EINVAL`: what is left is always a
multiple of the block size. -/
theorem ioLoop_fits (hfit : hs.blockSize ≤ hs.maxXfer) (hpos : 0 < hs.blockSize)
    (hle : bytesDone ≤ size) (hb : hs.blockSize ∣ size - bytesDone)
    (he : ioLoop dev hs dma opcode size fuel bytesDone lba page t qp = some (ret, t', q)) :
    ret = ssize size ∨ ret = -Errno.code Errno.EIO := by
  induction fuel using Nat.strongRecOn generalizing bytesDone lba page t qp with
  | ind fuel ih =>
    rcases ioLoop_cases he with ⟨hz, rfl, -⟩ | ⟨-, -, hlt, hc0⟩ | ⟨-, -, -, -, hret, -⟩ |
      ⟨fuel', chunk, t₁, q₁, rfl, -, hl, hlt, rfl, hne⟩
    · exact .inl (by rw [Nat.le_antisymm hle hz])
    · exact absurd hc0 (chunkSize_pos hfit hpos (by omega) hb).ne'
    · exact .inr hret
    · have hcle : hs.chunkSize (size - bytesDone) ≤ size - bytesDone :=
        (Nat.div_mul_le_self _ _).trans (min_le_left _ _)
      refine ih fuel' (Nat.lt_succ_self fuel') (by omega) ?_ hl
      rw [Nat.sub_add_eq]
      exact Nat.dvd_sub hb (Nat.dvd_mul_left _ _)

/-- The results of the loop: `-EINVAL` means that there was no turn. -/
theorem ioLoop_results (hpos : 0 < hs.blockSize) (hb : hs.blockSize ∣ size)
    (he : ioLoop dev hs dma opcode size fuel 0 lba page t qp = some (ret, t', q)) :
    ret = ssize size ∨ ret = -Errno.code Errno.EIO ∨ ret = -Errno.EINVAL.code ∧ q = qp := by
  by_cases hfit : hs.blockSize ≤ hs.maxXfer
  · rcases ioLoop_fits hfit hpos (Nat.zero_le _) hb he with hret | hret
    · exact .inl hret
    · exact .inr (.inl hret)
  · have hc0 := chunkSize_large (Nat.lt_of_not_le hfit) (size - 0)
    rcases ioLoop_cases he with ⟨hz, hret, -⟩ | ⟨hret, hq, -⟩ | ⟨-, -, -, -, -, -, rfl, hne⟩ |
      ⟨-, -, -, -, -, -, -, -, rfl, hne⟩
    · exact .inl (by rw [hret, Nat.le_zero.mp hz])
    · exact .inr (.inr ⟨hret, hq⟩)
    · exact absurd hc0 hne
    · exact absurd hc0 hne

end Loop

/-! ## The call -/

/-- A handle as registration and any number of calls leave it. -/
structure HandleState.Usable (hs : HandleState) : Prop where
  num_eq : hs.numQps = hs.qps.length
  num_pos : 1 ≤ hs.numQps
  num_lt : hs.numQps < 2 ^ 16
  pairs : ∀ q ∈ hs.qps, ∃ n, q.pair.Inv n

theorem HandleState.Fresh.usable {hs : HandleState} (h : hs.Fresh) : hs.Usable :=
  ⟨h.num_eq, h.num_pos, h.num_le, fun q hq => ⟨0, (h.pairs q hq).inv.1⟩⟩

theorem HandleState.Usable.next {hs : HandleState} (h : hs.Usable) :
    ∃ q, hs.qps[hs.qpIdx]? = some q ∧ ∃ n, q.pair.Inv n := by
  obtain ⟨q, hmem, hq⟩ := HandleState.exists_next h.num_pos h.num_lt h.num_eq
  exact ⟨q, hq, h.pairs q hmem⟩

theorem HandleState.Usable.set {hs : HandleState} (h : hs.Usable) {i rr n : Nat} {q : IOQueuePair}
    (hq : q.pair.Inv n) : ({ hs with rrCounter := rr, qps := hs.qps.set i q } : HandleState).Usable := by
  refine ⟨by simpa using h.num_eq, h.num_pos, h.num_lt, fun x hx => ?_⟩
  rcases List.mem_or_eq_of_mem_set hx with hx | rfl
  · exact h.pairs x hx
  · exact ⟨n, hq⟩

/-- From `hs₀` to `hs` the handle was used for transfers, with any device and any memory, and the
controller acted on its queue pairs between them. -/
inductive HandleState.UsedFrom (hs₀ : HandleState) : HandleState → Prop where
  | new : UsedFrom hs₀ hs₀
  | call {hs : HandleState} (h : UsedFrom hs₀ hs) {beyond : List (BitVec 64)} {dev : Device}
      {t : Nat} {c : IoCall} {r : IoResult} (hr : doIoOver beyond dev t hs c = some r) :
      UsedFrom hs₀ r.hs
  | act {hs : HandleState} (h : UsedFrom hs₀ hs) {i : Nat} {q : IOQueuePair}
      (hq : hs.qps[i]? = some q) (acts : List DevAct) :
      UsedFrom hs₀ { hs with qps := hs.qps.set i { q with pair := acts.foldl Qp.devStep q.pair } }

section Call

variable {hs : HandleState} {c : IoCall}

theorem ioAdmit_not_valid (h : ¬c.args.Valid hs) : ioAdmit hs c = .error .EINVAL := by
  simp only [ioAdmit]
  repeat' split
  all_goals first
    | rfl
    | exact absurd (by constructor <;> omega) h

theorem ioAdmit_valid (h : c.args.Valid hs) :
    ioAdmit hs c = ioBuffer hs c.reg c.mapDevice c.args := by
  obtain ⟨h1, h2, h3⟩ := h.checks
  simp only [ioAdmit, if_neg h1, if_neg h2, if_neg h.block_pos, if_neg h3, if_neg h.page_pos]

/-- The errors before the loop, and that none of them leaves a mapping. -/
theorem ioAdmit_error {e : Errno} (h : ioAdmit hs c = .error e) :
    (e = .EINVAL ∨ e = Errno.EIO) ∧ c.mapped hs = none := by
  by_cases hv : c.args.Valid hs
  · rw [ioAdmit_valid hv] at h
    simp only [ioBuffer] at h
    split at h
    · rename_i dma hreg
      have hm : c.mapped hs = none := by simp [IoCall.mapped, hreg]
      split at h
      · cases h
        exact ⟨.inl rfl, hm⟩
      split at h
      · cases h
        exact ⟨.inl rfl, hm⟩
      · cases h
    · rename_i hreg
      split at h
      · rename_i e' hmap
        cases h
        exact ⟨.inr rfl, by rw [IoCall.mapped, if_pos ⟨hv, hreg⟩, hmap]; rfl⟩
      · cases h
  · rw [ioAdmit_not_valid hv] at h
    cases h
    exact ⟨.inl rfl, if_neg fun hn => hv hn.1⟩

theorem ioAdmit_mapped {dma : NvmDma} {fly : Bool} {start : Nat}
    (h : ioAdmit hs c = .ok (dma, fly, start)) :
    c.mapped hs = if fly then some dma else none := by
  obtain ⟨hv, hb⟩ := ioAdmit_ok h
  simp only [ioBuffer] at hb
  split at hb
  · rename_i hreg
    split at hb
    · cases hb
    split at hb
    · cases hb
    · cases hb
      simp [IoCall.mapped, hreg]
  · rename_i hreg
    split at hb
    · cases hb
    · rename_i hmap
      cases hb
      rw [IoCall.mapped, if_pos ⟨hv, hreg⟩, hmap]
      rfl

/-- A call is refused before the loop, or it is what its loop makes of it. -/
theorem doIoOver_cases {beyond : List (BitVec 64)} {dev : Device} {t : Nat} {r : IoResult}
    (h : doIoOver beyond dev t hs c = some r) :
    (∃ e, ioAdmit hs c = .error e ∧ r = ⟨-e.code, t, hs, none, none⟩) ∨
      ∃ dma fly start qp ret t' pair, ioAdmit hs c = .ok (dma, fly, start) ∧
        hs.qps[hs.qpIdx]? = some qp ∧
        ioLoop dev hs (dma.followedBy beyond) c.args.opcode c.args.size
          (c.args.size / hs.blockSize) 0 (c.args.fileOffset.toNat / hs.blockSize) start t
          qp.pair = some (ret, t', pair) ∧
        r = ⟨ret, t', { hs with
          rrCounter := u32 (hs.rrCounter + 1)
          qps := hs.qps.set hs.qpIdx { qp with pair := pair } }, some dma,
          if fly then some dma else none⟩ := by
  unfold doIoOver at h
  split at h
  · rename_i e hadm
    cases h
    exact .inl ⟨e, hadm, rfl⟩
  rename_i dma fly start hadm
  split at h
  · cases h
  split at h
  · cases h
  rename_i qp hq
  split at h
  · cases h
  rename_i ret t' pair hl
  cases h
  exact .inr ⟨dma, fly, start, qp, ret, t', pair, hadm, hq, hl, rfl⟩

theorem HandleState.UsedFrom.usable {hs₀ : HandleState} (h₀ : hs₀.Fresh) (h : hs₀.UsedFrom hs) :
    hs.Usable := by
  induction h with
  | new => exact h₀.usable
  | call h hr ih =>
    rcases doIoOver_cases hr with ⟨e, -, rfl⟩ | ⟨dma, fly, start, qp, ret, t', pair, -, hq, hl, rfl⟩
    · exact ih
    · obtain ⟨n, hn⟩ := ih.pairs qp (List.mem_of_getElem? hq)
      obtain ⟨⟨n', hn'⟩, -⟩ := ioLoop_inv hn hl
      exact ih.set (q := { qp with pair := pair }) hn'
  | @act hs h i q hq acts ih =>
    obtain ⟨n, hn⟩ := ih.pairs q (List.mem_of_getElem? hq)
    exact ih.set (q := { q with pair := acts.foldl Qp.devStep q.pair }) (hn.foldl acts)

/-- A call returns when the memory after the list is long enough for its indices. -/
theorem doIoOver_returns (h : hs.Usable) (c : IoCall) :
    ∃ len, ∀ (beyond : List (BitVec 64)) (dev : Device) (t : Nat), len ≤ beyond.length →
      ∃ r, doIoOver beyond dev t hs c = some r := by
  cases hadm : ioAdmit hs c with
  | error e =>
    exact ⟨0, fun beyond dev t _ =>
      ⟨⟨-e.code, t, hs, none, none⟩, by simp only [doIoOver, hadm]⟩⟩
  | ok x =>
    obtain ⟨dma, fly, start⟩ := x
    obtain ⟨hv, -⟩ := ioAdmit_ok hadm
    have hb : hs.blockSize ∣ c.args.size - 0 := Nat.dvd_of_mod_eq_zero hv.size_block
    obtain ⟨len, hlen⟩ := ioLoop_returns (c.args.fileOffset.toNat / hs.blockSize) start
      (Nat.pos_of_ne_zero hv.block_pos) hb (Nat.le_refl _)
    obtain ⟨q, hq, n, hn⟩ := h.next
    refine ⟨len, fun beyond dev t hl => ?_⟩
    have hlong : len ≤ (dma.followedBy beyond).nIoaddrs := by
      simp only [NvmDma.followedBy, NvmDma.nIoaddrs, List.length_append]
      omega
    obtain ⟨⟨ret, t', pair⟩, hloop⟩ := hlen dev (dma.followedBy beyond) c.args.opcode t q.pair n
      hlong hn
    have hnum : ¬hs.numQps = 0 := Nat.ne_of_gt h.num_pos
    exact ⟨_, by simp only [doIoOver, hadm, if_neg hnum, hq]; erw [hloop]⟩

theorem ssize_of_lt {n : Nat} (h : n < 2 ^ 63) : ssize n = n := if_pos h

/-- Only one size is `-EINVAL` when it is taken for a signed number. -/
theorem ssize_eq_einval {n : Nat} (h : n < 2 ^ 64) (he : ssize n = -Errno.EINVAL.code) :
    n = 2 ^ 64 - 22 := by
  have hcode : Errno.EINVAL.code = 22 := rfl
  rw [hcode] at he
  simp only [ssize] at he
  split at he
  · omega
  · omega

/-- For a registered handle after any use, any device and any memory behind the address list: a call
returns when the memory reaches as far as the call indexes; it returns `size`, `-EINVAL` or `-EIO`;
with `-EINVAL` every queue pair is as it was; and what it had mapped on the fly, and nothing else,
is unmapped, once. A `size` from `2 ^ 63` on is returned as a negative number, and for one of them
this number is `-EINVAL`. -/
theorem do_io_results {hs₀ : HandleState} (h₀ : hs₀.Fresh) (hu : hs₀.UsedFrom hs) (c : IoCall) :
    (∃ len, ∀ (beyond : List (BitVec 64)) (dev : Device) (t : Nat), len ≤ beyond.length →
        ∃ r, doIoOver beyond dev t hs c = some r) ∧
      ∀ (beyond : List (BitVec 64)) (dev : Device) (t : Nat) (r : IoResult),
        doIoOver beyond dev t hs c = some r →
          (c.args.size < 2 ^ 63 → r.ret = c.args.size ∨ r.ret = -Errno.EINVAL.code ∨
            r.ret = -Errno.code Errno.EIO) ∧
          (c.args.size ≠ 2 ^ 64 - 22 → r.ret = -Errno.EINVAL.code → r.hs.qps = hs.qps) ∧
          r.unmapped = c.mapped hs := by
  refine ⟨doIoOver_returns (hu.usable h₀) c, fun beyond dev t r hr => ?_⟩
  rcases doIoOver_cases hr with ⟨e, hadm, rfl⟩ |
    ⟨dma, fly, start, qp, ret, t', pair, hadm, hq, hl, rfl⟩
  · obtain ⟨he, hm⟩ := ioAdmit_error hadm
    refine ⟨fun _ => ?_, fun _ _ => rfl, hm.symm⟩
    rcases he with rfl | rfl
    · exact .inr (.inl rfl)
    · exact .inr (.inr rfl)
  · obtain ⟨hv, -⟩ := ioAdmit_ok hadm
    have hres := ioLoop_results (Nat.pos_of_ne_zero hv.block_pos)
      (Nat.dvd_of_mod_eq_zero hv.size_block) hl
    refine ⟨fun hlt => ?_, fun hne hret => ?_, (ioAdmit_mapped hadm).symm⟩
    · rcases hres with hret | hret | ⟨hret, -⟩
      · exact .inl (hret.trans (ssize_of_lt hlt))
      · exact .inr (.inr hret)
      · exact .inr (.inl hret)
    · rcases hres with hsz | hio | ⟨-, hpair⟩
      · exact absurd (ssize_eq_einval c.args.size_lt (hsz.symm.trans hret)) hne
      · exact absurd (hret.symm.trans hio) (by decide)
      · -- the pair is put back where it was
        obtain ⟨hlt, hget⟩ := List.getElem?_eq_some_iff.mp hq
        subst hpair
        show hs.qps.set hs.qpIdx qp = hs.qps
        rw [← hget]
        exact List.set_getElem_self hlt

end Call

/-- A handle with blocks of 256 KiB and a limit of 128 KiB. -/
def largeBlocks : HandleState := { sampleHandle with blockSize := 2 ^ 18 }

theorem largeBlocks_fresh : largeBlocks.Fresh :=
  ⟨sampleHandle_fresh.num_eq, sampleHandle_fresh.num_pos, sampleHandle_fresh.num_le,
    sampleHandle_fresh.pairs⟩

theorem blockSize_lt : 2 ^ 18 < 2 ^ 64 := by decide

/-- A read of one block into a registered buffer. -/
def blockCall : IoCall where
  reg := some ⟨0, true, true, 4096, List.replicate 64 0x100000#64, 0⟩
  mapDevice := fun _ _ => .error Errno.EIO
  args := ⟨0x200000, 2 ^ 18, 0, 0, NVM_IO_READ, sampleBase_lt, blockSize_lt, zeroOffset_lt,
    zeroOffset_lt⟩

/-- The loop ends with `-EINVAL` in its first turn. -/
theorem do_io_results_large_block :
    ∃ r, doIoOver [] .prompt 0 largeBlocks blockCall = some r ∧ r.ret = -Errno.EINVAL.code ∧
      r.used.isSome ∧ r.hs.qps = largeBlocks.qps := by
  have hr : (doIoOver [] .prompt 0 largeBlocks blockCall).any (fun r =>
      r.ret = -Errno.EINVAL.code && r.used.isSome) = true := by decide +kernel
  obtain ⟨r, hr, hret⟩ := (Option.any_eq_true _ _).mp hr
  obtain ⟨hret, hused⟩ := Bool.and_eq_true_iff.mp hret
  have hret' := of_decide_eq_true hret
  obtain ⟨-, hkeep, -⟩ := (do_io_results largeBlocks_fresh .new blockCall).2 [] .prompt 0 r hr
  exact ⟨r, hr, hret', hused, hkeep (by decide) hret'⟩

end UGDS
