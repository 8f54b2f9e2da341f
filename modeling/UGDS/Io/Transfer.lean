import UGDS.Io.DoIo
import UGDS.Lib.Tiling

/-!
# UGDS.Io.Transfer

What the commands of a `do_io` call transfer.

A completed command (`Post`) is decoded as a controller does: SLBA and NLB give the disk bytes
(`Post.covers`); PRP1, PRP2 or the list page give the memory pages (`Post.pageAddr`), and so the
bus address paired with each disk byte (`Post.busAddr`).

* `dataPtrs_spec`: what `do_io` puts into the data pointer decodes to the pages of the buffer, for
  1, 2 and more pages.
* `Geometry`: the relation of block size, page size and transfer limit under which no chunk but the
  last ends inside a page.
* `ioLoop_exact`: the loop's commands tile the block range and pair each byte with the right
  address.
-/

namespace UGDS

open Nvm Lib

/-! ## Decoding -/

namespace Nvm
namespace Post

variable (page block : Nat) (listAddr : BitVec 64) (d : Post)

/-- The disk bytes that the command reads or writes. -/
def covers (x : Nat) : Prop :=
  d.cmd.slba.toNat * block ≤ x ∧ x < (d.cmd.slba.toNat + d.cmd.nBlocks) * block

/-- The address of page `j` of a transfer of `n` pages. PRP2 is the second page of two; for three
and more it must point to the list page, which has room for `page / 8` entries. -/
def pageAddr (n j : Nat) : Option (BitVec 64) :=
  if j = 0 then some d.cmd.prp1
  else if n = 2 then if j = 1 then some d.cmd.prp2 else none
  else if j < n ∧ n ≤ page / 8 + 1 ∧ d.cmd.prp2 = listAddr then some (d.prp (j - 1))
  else none

/-- The bus address paired with disk byte `x`, for a transfer that starts at a page boundary. -/
def busAddr (x : Nat) : Option (BitVec 64) :=
  let o := x - d.cmd.slba.toNat * block
  (d.pageAddr page listAddr ((d.cmd.nBlocks * block + page - 1) / page) (o / page)).map
    (· + BitVec.ofNat 64 (o % page))

/-- The same for any PRP1: its low bits are an offset into the first page. -/
def busAddrOff (x : Nat) : Option (BitVec 64) :=
  let off := d.cmd.prp1.toNat % page
  let o := off + (x - d.cmd.slba.toNat * block)
  (d.pageAddr page listAddr ((off + d.cmd.nBlocks * block + page - 1) / page) (o / page)).map
    (fun a => a - BitVec.ofNat 64 (a.toNat % page) + BitVec.ofNat 64 (o % page))

theorem covers_iff {d : Post} {x : Nat} (hb : 0 < block) :
    d.covers block x ↔
      d.cmd.slba.toNat ≤ x / block ∧ x / block < d.cmd.slba.toNat + d.cmd.nBlocks := by
  rw [covers, Nat.le_div_iff_mul_le hb, Nat.div_lt_iff_lt_mul hb]

end Post
end Nvm

/-! ## The data pointer -/

theorem prpFill_spec {ioaddrs : List (BitVec 64)} {page k : Nat} (prp : Nat → BitVec 64)
    (h : page + k < ioaddrs.length) :
    ∃ prp', prpFill ioaddrs page k prp = some prp' ∧
      ∀ j, j < k → ioaddrs[page + (j + 1)]? = some (prp' j) := by
  induction k with
  | zero => exact ⟨prp, rfl, fun j hj => absurd hj (Nat.not_lt_zero j)⟩
  | succ k ih =>
    obtain ⟨prp', he, hp⟩ := ih (by omega)
    have hk : ioaddrs[page + (k + 1)]? = some ioaddrs[page + (k + 1)] := List.getElem?_eq_getElem h
    refine ⟨Function.update prp' k ioaddrs[page + (k + 1)], by simp only [prpFill, he, hk], ?_⟩
    intro j hj
    by_cases hjk : j = k
    · subst hjk
      rw [hk, Function.update_self]
    · rw [Function.update_of_ne hjk]
      exact hp j (by omega)

theorem dataPtrs_spec {ioaddrs : List (BitVec 64)} {page n : Nat} (hn : 1 ≤ n)
    (h : page + n ≤ ioaddrs.length) (prpAddr : BitVec 64) (prp : Nat → BitVec 64) :
    ∃ prp1 prp2 prp', dataPtrs ioaddrs page n prpAddr prp = some (prp1, prp2, prp') ∧
      ioaddrs[page]? = some prp1 ∧ (n = 2 → ioaddrs[page + 1]? = some prp2) ∧
      (3 ≤ n → prp2 = prpAddr ∧ ∀ j, j < n - 1 → ioaddrs[page + (j + 1)]? = some (prp' j)) := by
  have h0 : ioaddrs[page]? = some (ioaddrs[page]) := List.getElem?_eq_getElem (by omega)
  by_cases h1 : n = 1
  · exact ⟨_, 0#64, prp, by simp only [dataPtrs, if_pos h1, h0], h0, by omega, by omega⟩
  · by_cases h2 : n = 2
    · have h3 : ioaddrs[page + 1]? = some (ioaddrs[page + 1]) :=
        List.getElem?_eq_getElem (by omega)
      exact ⟨_, _, prp, by simp only [dataPtrs, if_neg h1, if_pos h2, h0, h3], h0, fun _ => h3,
        by omega⟩
    · have hlt : page + (n - 1) < ioaddrs.length := by omega
      obtain ⟨prp', he, hp⟩ := prpFill_spec prp hlt
      exact ⟨_, prpAddr, prp', by simp only [dataPtrs, if_neg h1, if_neg h2, he, h0], h0,
        fun hc => absurd hc h2, fun _ => ⟨rfl, hp⟩⟩

/-- The pages that the controller finds are the buffer's, from page `pg` on. -/
theorem pageAddr_spec {ioaddrs : List (BitVec 64)} {pg n page : Nat} {d : Post}
    {listAddr : BitVec 64} (hn : n ≤ page / 8 + 1) (h1 : ioaddrs[pg]? = some d.cmd.prp1)
    (h2 : n = 2 → ioaddrs[pg + 1]? = some d.cmd.prp2)
    (h3 : 3 ≤ n → d.cmd.prp2 = listAddr ∧
      ∀ j, j < n - 1 → ioaddrs[pg + (j + 1)]? = some (d.prp j)) {j : Nat} (hj : j < n) :
    ∃ a, ioaddrs[pg + j]? = some a ∧ d.pageAddr page listAddr n j = some a := by
  unfold Post.pageAddr
  by_cases hj0 : j = 0
  · subst hj0
    exact ⟨_, h1, if_pos rfl⟩
  · rw [if_neg hj0]
    by_cases hn2 : n = 2
    · obtain rfl : j = 1 := by omega
      exact ⟨_, h2 hn2, by rw [if_pos hn2, if_pos rfl]⟩
    · obtain ⟨hl, ha⟩ := h3 (by omega)
      have := ha (j - 1) (by omega)
      rw [Nat.sub_add_cancel (by omega)] at this
      exact ⟨_, this, by rw [if_neg hn2, if_pos ⟨hj, hn, hl⟩]⟩

/-! ## Chunks -/

/-- How block size, page size and transfer limit fit together: the limit is a number of whole
pages that one list page can describe, and blocks and pages divide one another. The pages of the
chunks depend on no more than this. -/
structure Paged (hs : HandleState) : Prop where
  page_pos : 0 < hs.ctrl.pageSize
  block_pos : 0 < hs.blockSize
  divides : hs.blockSize ∣ hs.ctrl.pageSize ∨ hs.ctrl.pageSize ∣ hs.blockSize
  whole : hs.ctrl.pageSize ∣ hs.maxXfer
  fits : hs.blockSize ≤ hs.maxXfer
  list : hs.maxXfer ≤ (hs.ctrl.pageSize / 8 + 1) * hs.ctrl.pageSize
  small : hs.maxXfer + hs.ctrl.pageSize ≤ 2 ^ 64

/-- And 16 bits of block count can count the limit. -/
structure Geometry (hs : HandleState) : Prop extends Paged hs where
  blocks : hs.maxXfer / hs.blockSize ≤ 65536

section Chunk

variable {hs : HandleState}

/-- A chunk is a positive number of whole blocks, and whole pages unless it is the last one. -/
theorem Paged.chunk (g : Paged hs) {rem : Nat} (hrem : 0 < rem) (hb : hs.blockSize ∣ rem) :
    0 < hs.chunkSize rem ∧ hs.chunkSize rem ≤ rem ∧ hs.chunkSize rem ≤ hs.maxXfer ∧
      hs.blockSize ∣ hs.chunkSize rem ∧
      (hs.chunkSize rem = rem ∨ hs.ctrl.pageSize ∣ hs.chunkSize rem) := by
  have hble : hs.blockSize ≤ rem := Nat.le_of_dvd hrem hb
  have hmin : hs.blockSize ≤ min rem hs.maxXfer := le_min hble g.fits
  have hle : hs.chunkSize rem ≤ min rem hs.maxXfer := Nat.div_mul_le_self _ _
  refine ⟨?_, hle.trans (min_le_left _ _), hle.trans (min_le_right _ _), Nat.dvd_mul_left _ _, ?_⟩
  · exact Nat.mul_pos (Nat.div_pos hmin g.block_pos) g.block_pos
  · rcases Nat.le_total rem hs.maxXfer with h | h
    · left
      rw [HandleState.chunkSize, min_eq_left h, Nat.div_mul_cancel hb]
    · right
      rw [HandleState.chunkSize, min_eq_right h]
      rcases g.divides with hd | hd
      · rw [Nat.div_mul_cancel (hd.trans g.whole)]
        exact g.whole
      · exact hd.trans (Nat.dvd_mul_left _ _)

theorem ceil_pos {a p : Nat} (ha : 0 < a) (hp : 0 < p) : 1 ≤ (a + p - 1) / p :=
  (Nat.le_div_iff_mul_le hp).mpr (by omega)

theorem ceil_mul {p : Nat} (hp : 0 < p) (k : Nat) : (p * k + p - 1) / p = k := by
  rw [Nat.add_sub_assoc (by omega), Nat.mul_add_div hp, Nat.div_eq_of_lt (by omega), Nat.add_zero]

theorem div_lt_ceil {a o p : Nat} (hp : 0 < p) (h : o < a) : o / p < (a + p - 1) / p := by
  have h1 : o / p + 1 = (o + p) / p := (Nat.add_div_right o hp).symm
  have h2 : (o + p) / p ≤ (a + p - 1) / p := Nat.div_le_div_right (by omega)
  omega

/-- Pages counted chunk by chunk are the pages of the whole, when only the last chunk may end
inside a page. -/
theorem ceil_split {r c p : Nat} (hp : 0 < p) (hle : c ≤ r) (h : c = r ∨ p ∣ c) :
    (c + p - 1) / p + (r - c + p - 1) / p = (r + p - 1) / p := by
  rcases h with rfl | ⟨k, rfl⟩
  · rw [Nat.sub_self, Nat.zero_add, Nat.div_eq_of_lt (by omega : p - 1 < p), Nat.add_zero]
  · have he : r + p - 1 = p * k + (r - p * k + p - 1) := by omega
    rw [ceil_mul hp, he, Nat.mul_add_div hp]

theorem Paged.chunkPages (g : Paged hs) {c : Nat} (hc : 0 < c) (hle : c ≤ hs.maxXfer) :
    hs.chunkPages c = (c + hs.ctrl.pageSize - 1) / hs.ctrl.pageSize ∧ 1 ≤ hs.chunkPages c ∧
      hs.chunkPages c ≤ hs.ctrl.pageSize / 8 + 1 := by
  have hp := g.page_pos
  have hsmall := g.small
  have h1 := ceil_pos hc hp
  have he : hs.chunkPages c = (c + hs.ctrl.pageSize - 1) / hs.ctrl.pageSize := by
    rw [HandleState.chunkPages, u64_of_lt (by omega)]
    exact if_neg (by omega)
  refine ⟨he, he ▸ h1, ?_⟩
  rw [he, Nat.div_le_iff_le_mul_add_pred hp]
  have := g.list
  rw [Nat.mul_comm]
  omega

end Chunk

/-! ## One chunk -/

/-- The command `do_io` builds for a chunk, in a slot whose identifier is `cid`. -/
def rwCmd (hs : HandleState) (opcode : BitVec 8) (chunk lba : Nat) (cid : BitVec 16)
    (prp1 prp2 : BitVec 64) : NvmCmd :=
  buildRw cid opcode hs.nsId prp1 prp2 (BitVec.ofNat 64 lba)
    (BitVec.ofNat 16 (chunk / hs.blockSize))

/-- On an idle pair a chunk either runs out of polls, or takes the completion of its own command
and leaves the pair idle. -/
theorem ioChunk_idle {hs : HandleState} {dma : NvmDma} {chunk page : Nat} {qp : Qp}
    {prp1 prp2 : BitVec 64} {prp : Nat → BitVec 64} (dev : Device) (opcode : BitVec 8)
    (lba t : Nat) (h : qp.Idle)
    (hd : dataPtrs dma.ioaddrs page (hs.chunkPages chunk) qp.prpAddr qp.prp =
      some (prp1, prp2, prp)) :
    ∃ cid q₁, q₁.Inv qp.cmds.length ∧
      q₁.cmds = qp.cmds ++ [rwCmd hs opcode chunk lba cid prp1 prp2] ∧
      ((∃ t' q, busyPoll dev hs.spins t q₁ = (none, t', q) ∧
          ioChunk dev hs dma opcode chunk lba page t qp = some (false, t', q) ∧
          q.Inv qp.cmds.length ∧ Qp.Moved dev q₁ q) ∨
        ∃ cpl t' q, ioChunk dev hs dma opcode chunk lba page t qp =
            some (decide (cpl.status = 0), t', q) ∧
          dev.Sends cpl ∧ q.Idle ∧ q.cmds = q₁.cmds ∧ q.prpAddr = qp.prpAddr ∧
          q.posted = qp.posted ++
            [⟨qp.cmds.length, rwCmd hs opcode chunk lba cid prp1 prp2, cpl, prp⟩]) := by
  obtain ⟨slot, r, he, hi⟩ := h.issue h.has_room
  let cmd := rwCmd hs opcode chunk lba (nvmDefaultCid r.q) prp1 prp2
  refine ⟨nvmDefaultCid r.q, _, hi prp cmd, rfl, ?_⟩
  have hiss : ioIssue hs dma opcode chunk lba page slot { qp with sq := r } =
      some (({ qp with sq := r, prp := prp } : Qp).put slot cmd).submit := by
    simp only [ioIssue, hd]
    rfl
  have hslot : drainEnqueue dev hs.spins 2 t qp = some (some slot, t, { qp with sq := r }) := by
    simp only [drainEnqueue, he]
  rcases h.exec dev (hi prp cmd) rfl rfl hs.spins t with
    ⟨t', q, hp, hm, hq, -⟩ | ⟨cpl, t', q, hp, hs', hq, hc, ha, hpo⟩
  · exact .inl ⟨t', q, hp, ioChunk_timeout hslot hiss hp, hq, hm⟩
  · exact .inr ⟨cpl, t', q.retire, ioChunk_completed hslot hiss hp, hs', hq, hc, ha, hpo⟩

/-! ## The loop -/

/-- The completed commands `ds` cover `nBlocks` blocks from `lba` on, in order, and pair them with
the pages of `ioaddrs` from page `pg` on. -/
structure Transferred (ioaddrs : List (BitVec 64)) (page block : Nat) (listAddr : BitVec 64)
    (lba pg nBlocks : Nat) (ds : List Post) : Prop where
  tiles : Tiles (fun d : Post => d.cmd.slba.toNat) (fun d => d.cmd.nBlocks) lba ds (lba + nBlocks)
  addr : ∀ d ∈ ds, ∀ x, d.covers block x →
    ∃ a, ioaddrs[pg + (x - lba * block) / page]? = some a ∧
      d.pageAddr page listAddr ((d.cmd.nBlocks * block + page - 1) / page)
        ((x - d.cmd.slba.toNat * block) / page) = some a ∧
      (x - d.cmd.slba.toNat * block) % page = (x - lba * block) % page
  prp1 : ∀ d ∈ ds, d.cmd.prp1 ∈ ioaddrs

section Transferred

variable {ioaddrs : List (BitVec 64)} {page block lba pg m : Nat} {listAddr : BitVec 64}
  {ds : List Post}

theorem Transferred.nil : Transferred ioaddrs page block listAddr lba pg 0 [] :=
  ⟨.nil, by simp, by simp⟩

/-- A command in front. All but the last command of a transfer end at a page boundary, so the
commands behind it find their pages where the whole transfer has them. -/
theorem Transferred.cons {d : Post} (hp : 0 < page) (hslba : d.cmd.slba.toNat = lba)
    (hpos : 0 < d.cmd.nBlocks)
    (hpages : ∀ j, j < (d.cmd.nBlocks * block + page - 1) / page →
      ∃ a, ioaddrs[pg + j]? = some a ∧
        d.pageAddr page listAddr ((d.cmd.nBlocks * block + page - 1) / page) j = some a)
    (hprp : d.cmd.prp1 ∈ ioaddrs)
    (hrest : Transferred ioaddrs page block listAddr (lba + d.cmd.nBlocks)
      (pg + (d.cmd.nBlocks * block + page - 1) / page) m ds)
    (hend : ds = [] ∨ page ∣ d.cmd.nBlocks * block) :
    Transferred ioaddrs page block listAddr lba pg (d.cmd.nBlocks + m) (d :: ds) := by
  refine ⟨.cons hslba hpos ?_, ?_, ?_⟩
  · rw [← Nat.add_assoc]
    exact hrest.tiles
  · intro e he x hx
    rcases List.mem_cons.mp he with rfl | he
    · obtain ⟨h1, h2⟩ := hx
      rw [hslba, Nat.add_mul] at h2
      have hj : (x - lba * block) / page < (e.cmd.nBlocks * block + page - 1) / page := by
        rw [hslba] at h1
        exact div_lt_ceil hp (by omega)
      obtain ⟨a, ha1, ha2⟩ := hpages _ hj
      rw [hslba]
      exact ⟨a, ha1, ha2, rfl⟩
    · rcases hend with rfl | hend
      · simp at he
      · obtain ⟨a, ha1, ha2, ha3⟩ := hrest.addr e he x hx
        have hb := (hrest.tiles.mem_bounds e he).1
        have hge : (lba + d.cmd.nBlocks) * block ≤ x :=
          (Nat.mul_le_mul_right block hb).trans hx.1
        rw [Nat.add_mul] at hge
        obtain ⟨k, hk⟩ := hend
        have hsub : x - lba * block = (x - (lba + d.cmd.nBlocks) * block) + page * k := by
          rw [Nat.add_mul, ← hk]
          omega
        have hceil : (d.cmd.nBlocks * block + page - 1) / page = k := by
          rw [hk, ceil_mul hp]
        refine ⟨a, ?_, ha2, ?_⟩
        · rw [hsub, Nat.add_mul_div_left _ _ hp, ← ha1, hceil]
          congr 1
          omega
        · rw [ha3, hsub, Nat.add_mul_mod_self_left]
  · intro e he
    rcases List.mem_cons.mp he with rfl | he
    · exact hprp
    · exact hrest.prp1 e he

end Transferred

/-- The block range of the command built for a chunk. -/
theorem rwCmd_blocks {hs : HandleState} (g : Geometry hs) {chunk lba : Nat} (hc : 0 < chunk)
    (hle : chunk ≤ hs.maxXfer) (hb : hs.blockSize ∣ chunk) (hl : lba < 2 ^ 64)
    (opcode : BitVec 8) (cid : BitVec 16) (prp1 prp2 : BitVec 64) :
    (rwCmd hs opcode chunk lba cid prp1 prp2).slba.toNat = lba ∧
      (rwCmd hs opcode chunk lba cid prp1 prp2).nBlocks = chunk / hs.blockSize := by
  have h1 : 1 ≤ chunk / hs.blockSize := Nat.div_pos (Nat.le_of_dvd hc hb) g.block_pos
  have h2 : chunk / hs.blockSize ≤ 65536 := (Nat.div_le_div_right hle).trans g.blocks
  constructor
  · rw [rwCmd, buildRw_slba, BitVec.toNat_ofNat, Nat.mod_eq_of_lt hl]
  · rw [rwCmd, buildRw_nBlocks_ofNat _ _ _ _ _ _ h1 h2]

/-- One chunk on an idle pair, with a controller that completes everything. -/
theorem ioChunk_completes {dev : Device} {hs : HandleState} (hdev : dev.Completes hs.spins)
    {dma : NvmDma} {chunk page : Nat} {qp : Qp} {prp1 prp2 : BitVec 64} {prp : Nat → BitVec 64}
    (opcode : BitVec 8) (lba t : Nat) (h : qp.Idle)
    (hd : dataPtrs dma.ioaddrs page (hs.chunkPages chunk) qp.prpAddr qp.prp =
      some (prp1, prp2, prp)) :
    ∃ t' q cid cpl, ioChunk dev hs dma opcode chunk lba page t qp = some (true, t', q) ∧ q.Idle ∧
      q.prpAddr = qp.prpAddr ∧ q.cmds = qp.cmds ++ [rwCmd hs opcode chunk lba cid prp1 prp2] ∧
      q.posted = qp.posted ++
        [⟨qp.cmds.length, rwCmd hs opcode chunk lba cid prp1 prp2, cpl, prp⟩] ∧ cpl.status = 0 := by
  obtain ⟨cid, q₁, hi, hcmds, hrun⟩ := ioChunk_idle dev opcode lba t h hd
  rcases hrun with ⟨t', q, hnone, -⟩ | ⟨cpl, t', q, he, hsend, hq, hqc, hqa, hqp⟩
  · -- a completion arrives in time, so the wait does not run out
    obtain ⟨k, hk, hlt⟩ := hdev.timely t q₁ _ hi (by simp [hcmds])
    have := Qp.busyPoll_finds hi hs.spins t hk hlt
    rw [hnone] at this
    exact absurd rfl this
  · have hst := hdev.status hsend
    refine ⟨t', q, cid, cpl, ?_, hq, hqa, by rw [hqc, hcmds], hqp, hst⟩
    rw [he, hst]
    rfl

/-- The same for pages of the buffer, with what the controller finds in the data pointer. -/
theorem ioChunk_exact {dev : Device} {hs : HandleState} (g : Geometry hs)
    (hdev : dev.Completes hs.spins) {dma : NvmDma} {chunk pg : Nat} {qp : Qp} (opcode : BitVec 8)
    (lba t : Nat) (h : qp.Idle) (hc : 0 < chunk) (hle : chunk ≤ hs.maxXfer)
    (hpg : pg + hs.chunkPages chunk ≤ dma.ioaddrs.length) :
    ∃ t' q d cid prp1 prp2, ioChunk dev hs dma opcode chunk lba pg t qp = some (true, t', q) ∧
      q.Idle ∧ q.prpAddr = qp.prpAddr ∧ q.cmds = qp.cmds ++ [d.cmd] ∧
      q.posted = qp.posted ++ [d] ∧ d.cpl.status = 0 ∧
      d.cmd = rwCmd hs opcode chunk lba cid prp1 prp2 ∧ dma.ioaddrs[pg]? = some prp1 ∧
      ∀ j, j < hs.chunkPages chunk → ∃ a, dma.ioaddrs[pg + j]? = some a ∧
        d.pageAddr hs.ctrl.pageSize qp.prpAddr (hs.chunkPages chunk) j = some a := by
  obtain ⟨-, hn1, hn2⟩ := g.chunkPages hc hle
  obtain ⟨prp1, prp2, prp, hd, hp1, hp2, hp3⟩ := dataPtrs_spec hn1 hpg qp.prpAddr qp.prp
  obtain ⟨t', q, cid, cpl, he, hq, hqa, hqc, hqp, hst⟩ := ioChunk_completes hdev opcode lba t h hd
  have hs1 : (rwCmd hs opcode chunk lba cid prp1 prp2).prp1 = prp1 := buildRw_prp1 ..
  have hs2 : (rwCmd hs opcode chunk lba cid prp1 prp2).prp2 = prp2 := buildRw_prp2 ..
  refine ⟨t', q, ⟨qp.cmds.length, rwCmd hs opcode chunk lba cid prp1 prp2, cpl, prp⟩, cid, prp1,
    prp2, he, hq, hqa, hqc, hqp, hst, rfl, hp1, ?_⟩
  intro j hj
  exact pageAddr_spec hn2 (by rw [hs1]; exact hp1) (by rw [hs2]; exact hp2)
    (by rw [hs2]; exact hp3) hj

/-- The same in blocks: those of the chunk and those that are left add up. -/
theorem Geometry.chunk_blocks {hs : HandleState} (g : Geometry hs) {rem : Nat} (hrem : 0 < rem)
    (hb : hs.blockSize ∣ rem) :
    0 < hs.chunkSize rem / hs.blockSize ∧
      hs.chunkSize rem / hs.blockSize * hs.blockSize = hs.chunkSize rem ∧
      rem / hs.blockSize =
        hs.chunkSize rem / hs.blockSize + (rem - hs.chunkSize rem) / hs.blockSize ∧
      hs.blockSize ∣ rem - hs.chunkSize rem := by
  obtain ⟨hc0, hcle, -, hcb, -⟩ := g.chunk hrem hb
  have hb' : hs.blockSize ∣ rem - hs.chunkSize rem := Nat.dvd_sub hb hcb
  refine ⟨Nat.div_pos (Nat.le_of_dvd hc0 hcb) g.block_pos, Nat.div_mul_cancel hcb, ?_, hb'⟩
  rw [← Nat.mul_add_div g.block_pos, Nat.mul_div_cancel' hcb, Nat.add_sub_cancel' hcle]

/-- The transfer loop with a controller that completes every command: it returns with all bytes
done, and its commands cover the blocks from `lba` on and the pages from `pg` on. -/
theorem ioLoop_exact {dev : Device} {hs : HandleState} (g : Geometry hs)
    (hdev : dev.Completes hs.spins) (dma : NvmDma) (opcode : BitVec 8) {size : Nat}
    (fuel bytesDone lba pg t : Nat) {qp : Qp} (h : qp.Idle) (hdone : bytesDone ≤ size)
    (hb : hs.blockSize ∣ size - bytesDone) (hfuel : (size - bytesDone) / hs.blockSize ≤ fuel)
    (hpg : pg + (size - bytesDone + hs.ctrl.pageSize - 1) / hs.ctrl.pageSize ≤ dma.ioaddrs.length)
    (hlba : lba + (size - bytesDone) / hs.blockSize < 2 ^ 64) :
    ∃ t' q ds, ioLoop dev hs dma opcode size fuel bytesDone lba pg t qp =
        some (ssize size, t', q) ∧
      q.Idle ∧ q.prpAddr = qp.prpAddr ∧ q.cmds = qp.cmds ++ ds.map Post.cmd ∧
      q.posted = qp.posted ++ ds ∧ (∀ d ∈ ds, d.cpl.status = 0) ∧
      Transferred dma.ioaddrs hs.ctrl.pageSize hs.blockSize qp.prpAddr lba pg
        ((size - bytesDone) / hs.blockSize) ds := by
  -- on the turns allowed; each turn moves the whole-block remainder down by its chunk
  induction fuel generalizing bytesDone lba pg t qp with
  | zero =>
    have hz : size - bytesDone = 0 := by
      obtain ⟨k, hk⟩ := hb
      rw [hk, Nat.mul_div_cancel_left k g.block_pos] at hfuel
      rw [hk, Nat.le_zero.mp hfuel, Nat.mul_zero]
    obtain rfl : bytesDone = size := by omega
    refine ⟨t, qp, [], by rw [ioLoop, if_pos (le_refl _)], h, rfl, by simp, by simp, by simp, ?_⟩
    rw [hz, Nat.zero_div]
    exact .nil
  | succ fuel ih =>
    by_cases hz : size ≤ bytesDone
    · obtain rfl : bytesDone = size := by omega
      refine ⟨t, qp, [], by rw [ioLoop, if_pos hz], h, rfl, by simp, by simp, by simp, ?_⟩
      rw [Nat.sub_self, Nat.zero_div]
      exact .nil
    · have hrem : 0 < size - bytesDone := by omega
      obtain ⟨hc0, hcle, hcmax, hcb, hcend⟩ := g.chunk hrem hb
      obtain ⟨hkpos, hkc, hsum, hb'⟩ := g.chunk_blocks hrem hb
      generalize hc : hs.chunkSize (size - bytesDone) = c at *
      obtain ⟨hn, -, -⟩ := g.chunkPages hc0 hcmax
      rw [← Nat.sub_add_eq] at hsum hb'
      have hpg1 : pg + hs.chunkPages c ≤ dma.ioaddrs.length := by
        rw [hn]
        exact (Nat.add_le_add_left (Nat.div_le_div_right (by omega)) pg).trans hpg
      have hpg2 : pg + hs.chunkPages c +
          (size - (bytesDone + c) + hs.ctrl.pageSize - 1) / hs.ctrl.pageSize ≤
          dma.ioaddrs.length := by
        rw [hn, Nat.sub_add_eq, Nat.add_assoc, ceil_split g.page_pos hcle hcend]
        exact hpg
      obtain ⟨t₁, q₁, d, cid, prp1, prp2, he, hq, ha, hcm, hpo, hst, hcmd, hp1, hpages⟩ :=
        ioChunk_exact g hdev opcode lba t h hc0 hcmax hpg1
      obtain ⟨hslba, hnb⟩ :=
        rwCmd_blocks g hc0 hcmax hcb ((Nat.le_add_right _ _).trans_lt hlba) opcode cid prp1 prp2
      rw [← hcmd] at hslba hnb
      obtain ⟨t', q, ds, hl, hqi, hqa, hqc, hqp, hds, htr⟩ :=
        ih (bytesDone + c) (lba + c / hs.blockSize) (pg + hs.chunkPages c) t₁ hq (by omega)
          hb' (by omega) hpg2 (by omega)
      rw [ha] at htr
      refine ⟨t', q, d :: ds, ?_, hqi, hqa.trans ha, ?_, ?_, ?_, ?_⟩
      · rw [ioLoop, if_neg hz]
        simp only [hc, he, if_neg hc0.ne']
        exact hl
      · rw [hqc, hcm, List.map_cons, List.append_assoc]
        rfl
      · rw [hqp, hpo, List.append_assoc]
        rfl
      · intro e hme
        rcases List.mem_cons.mp hme with rfl | hme
        · exact hst
        · exact hds e hme
      · rw [hsum, ← hnb]
        rw [← hnb] at hkpos hkc htr
        refine .cons g.page_pos hslba hkpos ?_ ?_ ?_ ?_
        · rw [hkc, ← hn]
          exact hpages
        · rw [hcmd, rwCmd, buildRw_prp1]
          exact List.mem_of_getElem? hp1
        · rw [hkc, ← hn]
          exact htr
        · rcases hcend with hlast | hwhole
          · left
            have hdone : size - (bytesDone + c) = 0 := by omega
            rw [hdone, Nat.zero_div] at htr
            exact htr.tiles.eq_nil
          · right
            rw [hkc]
            exact hwhole

end UGDS
