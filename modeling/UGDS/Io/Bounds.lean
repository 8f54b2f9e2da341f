import UGDS.Io.Outcome

/-!
# UGDS.Io.Bounds

Which elements of `buf_dma->ioaddrs` and of `prp_list` a transfer uses.

A turn of the loop uses the indices `ioaddrIndices` and `prpIndices`; `ioTurns` are the turns that a
call takes with a given controller and queue pair, up to and with one that indexes out of range.

* `dataPtrs_defined_iff`: the model has a data pointer exactly where the indices are in range.
* `ioTurns_initial`, `ioTurns_all`: the turns are the first of `ioReqs`, and all of them with a
  controller that completes every command.
* `Paged.turns_in_range_iff`: all turns stay in range exactly if the pages of the whole transfer do.
* `Paged.ioLoop_ret`: what the loop returns.
* `paged_of_pow`: when pages, blocks and the transfer limit are powers of two, all chunks but the last
  are whole pages and fit the list page.
-/

namespace UGDS

open Nvm Lib

/-! ## The indices of a turn -/

/-- The indices used on `buf_dma->ioaddrs` for `nPages` pages from `current_page` on. -/
def ioaddrIndices (page nPages : Nat) : List Nat :=
  if nPages = 1 then [page]
  else if nPages = 2 then [page, page + 1]
  else (List.range (nPages - 1)).map (fun k => page + (k + 1)) ++ [page]

/-- The indices used on `prp_list`, `i - 1` for `i` from 1 to `nPages - 1`. -/
def prpIndices (nPages : Nat) : List Nat :=
  if nPages = 1 ∨ nPages = 2 then [] else List.range (nPages - 1)

/-- The turn uses no index outside `ioaddrs` and none outside the list page. -/
structure Req.InRange (hs : HandleState) (dma : NvmDma) (r : Req) : Prop where
  ioaddrs : ∀ i ∈ ioaddrIndices r.page (hs.chunkPages r.chunk), i < dma.nIoaddrs
  prpList : ∀ i ∈ prpIndices (hs.chunkPages r.chunk), i < hs.ctrl.pageSize / 8

theorem ioaddrIndices_lt_iff {page n : Nat} (hn : 1 ≤ n) (len : Nat) :
    (∀ i ∈ ioaddrIndices page n, i < len) ↔ page + n ≤ len := by
  unfold ioaddrIndices
  split
  · simp only [List.mem_singleton, forall_eq]
    omega
  split
  · simp only [List.mem_cons, List.not_mem_nil, or_false, forall_eq_or_imp, forall_eq]
    omega
  · constructor
    · intro h
      have := h (page + (n - 2 + 1)) (List.mem_append_left _
        (List.mem_map.mpr ⟨n - 2, List.mem_range.mpr (by omega), rfl⟩))
      omega
    · intro h i hi
      rcases List.mem_append.mp hi with hi | hi
      · obtain ⟨k, hk, rfl⟩ := List.mem_map.mp hi
        have := List.mem_range.mp hk
        omega
      · rw [List.mem_singleton.mp hi]
        omega

theorem prpIndices_lt {n len i : Nat} (hn : n ≤ len + 1) (hi : i ∈ prpIndices n) : i < len := by
  unfold prpIndices at hi
  split at hi
  · cases hi
  · have := List.mem_range.mp hi
    omega

/-- Where an index is out of range there is no data pointer. -/
theorem dataPtrs_defined_iff {ioaddrs : List (BitVec 64)} {page n : Nat} (hn : 1 ≤ n)
    (prpAddr : BitVec 64) (prp : Nat → BitVec 64) :
    (∃ x, dataPtrs ioaddrs page n prpAddr prp = some x) ↔
      ∀ i ∈ ioaddrIndices page n, i < ioaddrs.length := by
  rw [ioaddrIndices_lt_iff hn]
  constructor
  · rintro ⟨x, hx⟩
    unfold dataPtrs at hx
    split at hx
    · split at hx
      · rename_i a ha
        have := (List.getElem?_eq_some_iff.mp ha).1
        omega
      · cases hx
    split at hx
    · split at hx
      · rename_i a b _ hb
        have := (List.getElem?_eq_some_iff.mp hb).1
        omega
      · cases hx
    · split at hx
      · rename_i prp' a hp _
        have := (List.getElem?_eq_some_iff.mp (prpFill_entries hp (n - 2) (by omega))).1
        omega
      · cases hx
  · intro h
    obtain ⟨prp1, prp2, prp', hd, -⟩ := dataPtrs_spec hn h prpAddr prp
    exact ⟨_, hd⟩

/-- A turn that ends has made its data pointer. -/
theorem ioChunk_defined {dev : Device} {hs : HandleState} {dma : NvmDma} {opcode : BitVec 8}
    {chunk lba page t t' : Nat} {qp q : Qp}
    (h : ioChunk dev hs dma opcode chunk lba page t qp = some (true, t', q)) :
    ∃ (qp' : Qp) (x : BitVec 64 × BitVec 64 × (Nat → BitVec 64)),
      dataPtrs dma.ioaddrs page (hs.chunkPages chunk) qp'.prpAddr qp'.prp = some x := by
  unfold ioChunk at h
  split at h
  · cases h
  · cases h
  · rename_i slot t₁ q₁ hslot
    split at h
    · cases h
    · rename_i q₂ hi
      unfold ioIssue at hi
      split at hi
      · cases hi
      · rename_i prp1 prp2 prp hd
        exact ⟨q₁, _, hd⟩

/-! ## The turns of a call -/

/-- The turns of the loop that come to use their indices: those that get a slot, each after the one
before it has taken a completion with status 0. -/
def ioTurns (dev : Device) (hs : HandleState) (dma : NvmDma) (opcode : BitVec 8) (size : Nat) :
    (fuel bytesDone lba page t : Nat) → Qp → List Req
  | 0, _, _, _, _, _ => []
  | fuel + 1, bytesDone, lba, page, t, qp =>
    if size ≤ bytesDone then []
    else
      let chunk := hs.chunkSize (size - bytesDone)
      if chunk = 0 then []
      else if (drainEnqueue dev hs.spins 2 t qp).any fun x => x.1.isSome then
        ⟨chunk, lba, page⟩ ::
          match ioChunk dev hs dma opcode chunk lba page t qp with
          | some (true, t, qp) =>
            ioTurns dev hs dma opcode size fuel (bytesDone + chunk) (lba + chunk / hs.blockSize)
              (page + hs.chunkPages chunk) t qp
          | _ => []
      else []

section Turns

variable {dev : Device} {hs : HandleState} {dma : NvmDma} {opcode : BitVec 8} {size : Nat} {qp : Qp}

theorem ioTurns_initial (dev : Device) (hs : HandleState) (dma : NvmDma) (opcode : BitVec 8)
    (size fuel bytesDone lba page t : Nat) (qp : Qp) :
    ioTurns dev hs dma opcode size fuel bytesDone lba page t qp <+:
      ioReqs hs size fuel bytesDone lba page := by
  induction fuel generalizing bytesDone lba page t qp with
  | zero => exact List.nil_prefix
  | succ fuel ih =>
    simp only [ioTurns, ioReqs]
    split
    · exact List.nil_prefix
    split
    · exact List.nil_prefix
    split
    · refine List.cons_prefix_cons.mpr ⟨rfl, ?_⟩
      split
      · exact ih ..
      · exact List.nil_prefix
    · exact List.nil_prefix

/-- On an idle pair the first turn gets its slot. -/
theorem ioTurns_cons {bytesDone : Nat} (h : qp.Idle) (hlt : bytesDone < size)
    (hne : hs.chunkSize (size - bytesDone) ≠ 0) (fuel lba page t : Nat) :
    ∃ rest, ioTurns dev hs dma opcode size (fuel + 1) bytesDone lba page t qp =
        ⟨hs.chunkSize (size - bytesDone), lba, page⟩ :: rest ∧
      ∀ t' q, ioChunk dev hs dma opcode (hs.chunkSize (size - bytesDone)) lba page t qp =
          some (true, t', q) →
        rest = ioTurns dev hs dma opcode size fuel (bytesDone + hs.chunkSize (size - bytesDone))
          (lba + hs.chunkSize (size - bytesDone) / hs.blockSize)
          (page + hs.chunkPages (hs.chunkSize (size - bytesDone))) t' q := by
  obtain ⟨slot, r, he, -⟩ := h.issue h.has_room
  have hslot : (drainEnqueue dev hs.spins 2 t qp).any (fun x => x.1.isSome) = true := by
    simp [drainEnqueue, he]
  simp only [ioTurns, if_neg (by omega : ¬size ≤ bytesDone), if_neg hne, hslot, if_true]
  refine ⟨_, rfl, ?_⟩
  intro t' q hc
  rw [hc]

/-- A controller that completes everything gets the call through all its turns, as long as they are
in range. -/
theorem ioTurns_all (hdev : dev.Completes hs.spins)
    (fuel bytesDone lba page t : Nat) (h : qp.Idle)
    (hpages : ∀ r ∈ ioReqs hs size fuel bytesDone lba page, 1 ≤ hs.chunkPages r.chunk)
    (hin : ∀ r ∈ ioTurns dev hs dma opcode size fuel bytesDone lba page t qp, r.InRange hs dma) :
    ioTurns dev hs dma opcode size fuel bytesDone lba page t qp =
      ioReqs hs size fuel bytesDone lba page := by
  induction fuel generalizing bytesDone lba page t qp with
  | zero => rfl
  | succ fuel ih =>
    by_cases hlt : size ≤ bytesDone
    · simp only [ioTurns, ioReqs, if_pos hlt]
    by_cases hne : hs.chunkSize (size - bytesDone) = 0
    · simp only [ioTurns, ioReqs, if_neg hlt, if_pos hne]
    · obtain ⟨rest, he, hrest⟩ := @ioTurns_cons dev hs dma opcode size qp bytesDone h (by omega) hne
        fuel lba page t
      rw [ioReqs_cons (by omega) hne] at hpages ⊢
      rw [he] at hin ⊢
      have hn := hpages _ List.mem_cons_self
      obtain ⟨⟨prp1, prp2, prp⟩, hd⟩ := (dataPtrs_defined_iff hn qp.prpAddr qp.prp).mpr
        (hin _ List.mem_cons_self).ioaddrs
      obtain ⟨t', q, -, -, hc, hq, -⟩ := ioChunk_completes hdev opcode lba t h hd
      rw [hrest t' q hc] at hin ⊢
      congr 1
      exact ih _ _ _ _ hq (fun r hr => hpages r (List.mem_cons_of_mem _ hr))
        fun r hr => hin r (List.mem_cons_of_mem _ hr)

end Turns

/-! ## The pages of a whole transfer -/

section Pages

variable {hs : HandleState} {size : Nat}

/-- Every request ends within the pages of the transfer, and the list page has room for it. -/
theorem Paged.req_le (g : Paged hs) {fuel bytesDone lba page : Nat} {r : Req}
    (hb : hs.blockSize ∣ size - bytesDone)
    (hr : r ∈ ioReqs hs size fuel bytesDone lba page) :
    1 ≤ hs.chunkPages r.chunk ∧ hs.chunkPages r.chunk ≤ hs.ctrl.pageSize / 8 + 1 ∧
      r.page + hs.chunkPages r.chunk ≤
        page + (size - bytesDone + hs.ctrl.pageSize - 1) / hs.ctrl.pageSize := by
  induction fuel generalizing bytesDone lba page with
  | zero => cases hr
  | succ fuel ih =>
    simp only [ioReqs] at hr
    split at hr
    · cases hr
    split at hr
    · cases hr
    · rename_i hlt hne
      obtain ⟨hc0, hcle, hcmax, hcb, hcend⟩ := g.chunk (by omega : 0 < size - bytesDone) hb
      obtain ⟨hn, hn1, hn2⟩ := g.chunkPages hc0 hcmax
      have hsplit := ceil_split g.page_pos hcle hcend
      rw [← hn] at hsplit
      rcases List.mem_cons.mp hr with rfl | hr
      · exact ⟨hn1, hn2, Nat.add_le_add_left (Nat.le.intro hsplit) page⟩
      · obtain ⟨h1, h2, h3⟩ := ih (by rw [Nat.sub_add_eq]; exact Nat.dvd_sub hb hcb) hr
        rw [Nat.sub_add_eq] at h3
        exact ⟨h1, h2, by omega⟩

/-- The last request ends where the transfer does. -/
theorem Paged.last_req (g : Paged hs) {fuel bytesDone : Nat} (lba page : Nat) (hlt : bytesDone < size)
    (hb : hs.blockSize ∣ size - bytesDone) (hfuel : (size - bytesDone) / hs.blockSize ≤ fuel) :
    ∃ r ∈ ioReqs hs size fuel bytesDone lba page, r.page + hs.chunkPages r.chunk =
      page + (size - bytesDone + hs.ctrl.pageSize - 1) / hs.ctrl.pageSize := by
  induction fuel generalizing bytesDone lba page with
  | zero =>
    have := Nat.div_pos (Nat.le_of_dvd (by omega) hb) g.block_pos
    omega
  | succ fuel ih =>
    obtain ⟨hc0, hcle, hcmax, hcb, hcend⟩ := g.chunk (by omega : 0 < size - bytesDone) hb
    obtain ⟨hn, -, -⟩ := g.chunkPages hc0 hcmax
    have hsplit := ceil_split g.page_pos hcle hcend
    rw [← hn] at hsplit
    obtain ⟨hb', hfuel'⟩ := chunkSize_fuel (by omega) hb hfuel
    rw [ioReqs_cons hlt (by omega)]
    generalize hs.chunkSize (size - bytesDone) = c at *
    by_cases hlast : c = size - bytesDone
    · subst hlast
      have hzero : (hs.ctrl.pageSize - 1) / hs.ctrl.pageSize = 0 :=
        Nat.div_eq_of_lt (Nat.sub_lt g.page_pos Nat.one_pos)
      rw [Nat.sub_self, Nat.zero_add, hzero] at hsplit
      exact ⟨_, List.mem_cons_self, by simp only; omega⟩
    · obtain ⟨r, hr, he⟩ := ih (lba + c / hs.blockSize) (page + hs.chunkPages c)
        (by omega : bytesDone + c < size) (by rw [Nat.sub_add_eq]; exact hb')
        (by rw [Nat.sub_add_eq]; exact hfuel')
      rw [Nat.sub_add_eq] at he
      exact ⟨r, List.mem_cons_of_mem _ hr, by omega⟩

/-- Counted in bytes, every request lies between the start and the end of the transfer. -/
theorem Paged.req_bytes (g : Paged hs) {fuel bytesDone lba page : Nat} {r : Req}
    (hb : hs.blockSize ∣ size - bytesDone)
    (hr : r ∈ ioReqs hs size fuel bytesDone lba page) :
    page ≤ r.page ∧ r.page * hs.ctrl.pageSize + r.chunk ≤
      page * hs.ctrl.pageSize + (size - bytesDone) := by
  induction fuel generalizing bytesDone lba page with
  | zero => cases hr
  | succ fuel ih =>
    simp only [ioReqs] at hr
    split at hr
    · cases hr
    split at hr
    · cases hr
    · rename_i hlt hne
      obtain ⟨hc0, hcle, hcmax, hcb, hcend⟩ := g.chunk (by omega : 0 < size - bytesDone) hb
      obtain ⟨hn, -, -⟩ := g.chunkPages hc0 hcmax
      generalize hs.chunkSize (size - bytesDone) = c at *
      rcases List.mem_cons.mp hr with rfl | hr
      · exact ⟨Nat.le_refl _, Nat.add_le_add_left hcle _⟩
      · obtain ⟨h1, h2⟩ := ih (by rw [Nat.sub_add_eq]; exact Nat.dvd_sub hb hcb) hr
        refine ⟨(Nat.le_add_right _ _).trans h1, ?_⟩
        rcases hcend with hlast | ⟨k, hk⟩
        · -- nothing follows the last chunk
          cases fuel with
          | zero => cases hr
          | succ fuel =>
            simp only [ioReqs, if_pos (by omega : size ≤ bytesDone + c)] at hr
            cases hr
        · have hck : hs.chunkPages c * hs.ctrl.pageSize = c := by
            rw [hn, hk, ceil_mul g.page_pos, Nat.mul_comm]
          rw [Nat.add_mul, hck] at h2
          omega

/-- Whatever the controller does and whatever state the queue pair is in: the turns of a transfer
stay in range exactly if its pages, counted without wrapping around, are within `ioaddrs`. -/
theorem Paged.turns_in_range_iff (g : Paged hs) (dma : NvmDma) (opcode : BitVec 8) (lba start : Nat)
    (hpos : 0 < size) (hb : hs.blockSize ∣ size) :
    (∀ (dev : Device) (t : Nat) (qp : Qp),
        ∀ r ∈ ioTurns dev hs dma opcode size (size / hs.blockSize) 0 lba start t qp,
          r.InRange hs dma) ↔
      start + (size + hs.ctrl.pageSize - 1) / hs.ctrl.pageSize ≤ dma.nIoaddrs := by
  have hle (r : Req) (hr : r ∈ ioReqs hs size (size / hs.blockSize) 0 lba start) :=
    g.req_le (by rw [Nat.sub_zero]; exact hb) hr
  constructor
  · intro h
    -- any idle pair will do
    have hall := ioTurns_all (Device.prompt_completes hs.spins) _ 0 lba start 0 sampleQp_idle
      (fun r hr => (hle r hr).1) (h .prompt 0 sampleQp)
    obtain ⟨r, hr, he⟩ := g.last_req lba start hpos (by rw [Nat.sub_zero]; exact hb) le_rfl
    rw [Nat.sub_zero] at hr he
    have hin := h .prompt 0 sampleQp r (by rw [hall]; exact hr)
    rw [← he]
    exact (ioaddrIndices_lt_iff (hle r hr).1 _).mp hin.ioaddrs
  · intro h dev t qp r hr
    obtain ⟨h1, h2, h3⟩ := hle r ((ioTurns_initial ..).subset hr)
    rw [Nat.sub_zero] at h3
    exact ⟨(ioaddrIndices_lt_iff h1 _).mpr (h3.trans h), fun i hi => prpIndices_lt h2 hi⟩

/-- A loop that returns has transferred everything, and then every request was within `ioaddrs`, or
it returns `-EIO`. -/
theorem Paged.ioLoop_ret (g : Paged hs) {dev : Device} {dma : NvmDma} {opcode : BitVec 8}
    {fuel bytesDone lba page t t' : Nat} {qp q : Qp} {ret : Int} (hle : bytesDone ≤ size)
    (hb : hs.blockSize ∣ size - bytesDone)
    (he : ioLoop dev hs dma opcode size fuel bytesDone lba page t qp = some (ret, t', q)) :
    ret = -Errno.code Errno.EIO ∨ ret = ssize size ∧
      ∀ r ∈ ioReqs hs size fuel bytesDone lba page,
        r.page + hs.chunkPages r.chunk ≤ dma.nIoaddrs := by
  induction fuel generalizing bytesDone lba page t qp with
  | zero =>
    rw [ioLoop.eq_def] at he
    split at he
    · cases he
      obtain rfl : bytesDone = size := by omega
      exact .inr ⟨rfl, fun r hr => by cases hr⟩
    · cases he
  | succ fuel ih =>
    rw [ioLoop.eq_def] at he
    split at he
    · rename_i hz
      cases he
      obtain rfl : bytesDone = size := by omega
      refine .inr ⟨rfl, fun r hr => ?_⟩
      simp only [ioReqs, if_pos hz] at hr
      cases hr
    · rename_i hz
      obtain ⟨hc0, hcle, hcmax, hcb, -⟩ := g.chunk (by omega : 0 < size - bytesDone) hb
      simp only [if_neg (by omega : ¬hs.chunkSize (size - bytesDone) = 0)] at he
      split at he
      · cases he
      · cases he
        exact .inl rfl
      · rename_i t₁ q₁ hc
        have hb' : hs.blockSize ∣ size - (bytesDone + hs.chunkSize (size - bytesDone)) := by
          rw [Nat.sub_add_eq]
          exact Nat.dvd_sub hb hcb
        rcases ih (by omega) hb' he with hret | ⟨hret, hrest⟩
        · exact .inl hret
        · refine .inr ⟨hret, fun r hr => ?_⟩
          rw [ioReqs_cons (by omega) (by omega)] at hr
          rcases List.mem_cons.mp hr with rfl | hr
          · obtain ⟨qp', x, hd⟩ := ioChunk_defined hc
            have hn := (g.chunkPages hc0 hcmax).2.1
            exact (ioaddrIndices_lt_iff hn _).mp ((dataPtrs_defined_iff hn _ _).mp ⟨x, hd⟩)
          · exact hrest r hr

end Pages

/-! ## Powers of two -/

/-- A multiple of a power of two stays one when it wraps around. -/
theorem pow_dvd_u64 {j n : Nat} (hj : j ≤ 64) (h : 2 ^ j ∣ n) : 2 ^ j ∣ u64 n :=
  (Nat.dvd_mod_iff (Nat.pow_dvd_pow 2 hj)).mpr h

/-- Pages, blocks and the transfer limit are powers of two, the limit also 0, as
`uGDSHandleRegister` gets them from a controller. -/
structure HandleState.Pow (hs : HandleState) (j b : Nat) : Prop where
  page_lt : j < 64
  page : hs.ctrl.pageSize = 2 ^ j
  block : hs.blockSize = 2 ^ b
  limit : hs.maxTransferSize = 0 ∨ ∃ m, hs.maxTransferSize = 2 ^ m

/-- A block that is larger than the limit leaves no chunk. -/
theorem chunkSize_large {hs : HandleState} (h : hs.maxXfer < hs.blockSize) (rem : Nat) :
    hs.chunkSize rem = 0 := by
  have hlt : min rem hs.maxXfer < hs.blockSize := (Nat.min_le_right _ _).trans_lt h
  rw [HandleState.chunkSize, Nat.div_eq_of_lt hlt, Nat.zero_mul]

/-- `max_xfer` is what the list page allows, a page, or the limit or its default. -/
theorem maxXfer_cases (hs : HandleState) :
    hs.maxXfer ≤ u64 ((hs.ctrl.pageSize / 8 + 1) * hs.ctrl.pageSize) ∧
      (hs.maxXfer = u64 ((hs.ctrl.pageSize / 8 + 1) * hs.ctrl.pageSize) ∨
        hs.maxXfer = hs.ctrl.pageSize ∨
        hs.ctrl.pageSize ≤ hs.maxXfer ∧ hs.maxXfer = 2 ^ 17 ∨
        hs.ctrl.pageSize ≤ hs.maxXfer ∧ hs.maxXfer = hs.maxTransferSize ∧
          hs.maxTransferSize ≠ 0) := by
  unfold HandleState.maxXfer
  simp only
  generalize u64 ((hs.ctrl.pageSize / 8 + 1) * hs.ctrl.pageSize) = prpMax
  by_cases hz : hs.maxTransferSize = 0
  · simp only [if_pos hz]
    split <;> split <;> omega
  · simp only [if_neg hz]
    split <;> split <;> omega

theorem HandleState.Pow.whole {hs : HandleState} {j b : Nat} (h : hs.Pow j b) : 2 ^ j ∣ hs.maxXfer := by
  have hpow {m : Nat} (hm : 2 ^ j ≤ 2 ^ m) : 2 ^ j ∣ 2 ^ m :=
    Nat.pow_dvd_pow 2 ((Nat.pow_le_pow_iff_right (by decide)).mp hm)
  obtain ⟨-, hc⟩ := maxXfer_cases hs
  rw [h.page] at hc
  rcases hc with he | he | ⟨hle, he⟩ | ⟨hle, he, hne⟩
  · rw [he]
    exact pow_dvd_u64 h.page_lt.le (Nat.dvd_mul_left _ _)
  · rw [he]
  · rw [he] at hle ⊢
    exact hpow hle
  · obtain ⟨m, hm⟩ := h.limit.resolve_left hne
    rw [he, hm] at hle ⊢
    exact hpow hle

/-- A transfer whose blocks fit the limit is cut into whole pages, and no chunk needs more than one
list page. -/
theorem paged_of_pow {hs : HandleState} {j b : Nat} (h : hs.Pow j b)
    (hfits : hs.blockSize ≤ hs.maxXfer) : Paged hs := by
  have hwhole := h.whole
  have hle := (maxXfer_cases hs).1
  rw [h.page] at hle
  have hdvd : 2 ^ j ∣ 2 ^ 64 := Nat.pow_dvd_pow 2 h.page_lt.le
  refine ⟨?_, ?_, ?_, ?_, hfits, ?_, ?_⟩
  · rw [h.page]
    exact Nat.two_pow_pos j
  · rw [h.block]
    exact Nat.two_pow_pos b
  · rw [h.page, h.block]
    exact (Nat.le_total b j).imp (Nat.pow_dvd_pow 2) (Nat.pow_dvd_pow 2)
  · rw [h.page]
    exact hwhole
  · rw [h.page]
    exact hle.trans (Nat.mod_le _ _)
  · -- both are multiples of a page, so there is a whole page between them
    rw [h.page]
    have hlt : hs.maxXfer < 2 ^ 64 := hle.trans_lt (u64_lt _)
    have := Nat.le_of_dvd (by omega) (Nat.dvd_sub hdvd hwhole)
    omega

end UGDS
