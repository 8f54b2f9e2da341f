import UGDS.Io.Independent

/-!
# UGDS.Io.Footprint

Which bytes the calls of `do_io` move, and that the commands in the controller's hands move no
others.

`NvmCmd.ends` reads a command as a controller does: byte `o` of it goes from one place to another.
`IoCall.ends` says the same about byte `b` of a call, from its arguments and the mapping of its
buffer.

* `Made.ends`: the command of a chunk moves the bytes of the chunk.
* `Threads.Cursors`: the holder of a lock is in its critical section, and its cursors stand where
  `bytes_done` says. Every step keeps it (`step_cursors`).
* `Threads.fetched_ends`: a command that the controller has fetched and not completed belongs to the
  holder of the pair's lock and moves bytes of that call.
-/

namespace UGDS

open Nvm Lib

/-! ## Places -/

/-- A byte that a command reads or writes: one of the namespace, or one at a bus address. -/
inductive Loc where
  | disk (x : Nat)
  | mem (a : BitVec 64)
  deriving DecidableEq

/-- From where to where a command with this opcode moves the byte that is `x` on the namespace and
`a` in memory. -/
def moves (opcode : BitVec 8) (x : Nat) (a : BitVec 64) : Option (Loc × Loc) :=
  if opcode = NVM_IO_WRITE then some (.mem a, .disk x)
  else if opcode = NVM_IO_READ then some (.disk x, .mem a)
  else none

/-- Byte `o` of a command, read with the list page `prp` at `listAddr`. -/
def Nvm.NvmCmd.ends (hs : HandleState) (listAddr : BitVec 64) (prp : Nat → BitVec 64)
    (cmd : NvmCmd) (o : Nat) : Option (Loc × Loc) :=
  let x := cmd.slba.toNat * hs.blockSize + o
  if o < cmd.nBlocks * hs.blockSize then
    match (Post.mk 0 cmd .zero prp).busAddrOff hs.ctrl.pageSize hs.blockSize listAddr x with
    | none => none
    | some a => moves cmd.opcode x a
  else none

/-- Byte `b` of a transfer that starts at page `start` of the mapping. The header keeps the low
seven bits of the opcode. -/
def IoArgs.ends (hs : HandleState) (a : IoArgs) (dma : NvmDma) (start b : Nat) :
    Option (Loc × Loc) :=
  match dma.ioaddrs[start + b / hs.ctrl.pageSize]? with
  | none => none
  | some addr =>
    moves (a.opcode &&& 0x7f#8) (a.fileOffset.toNat + b)
      (addr + BitVec.ofNat 64 (b % hs.ctrl.pageSize))

def IoCall.ends (hs : HandleState) (c : IoCall) (b : Nat) : Option (Loc × Loc) :=
  match ioAdmit hs c with
  | .error _ => none
  | .ok (dma, _, start) => if b < c.args.size then c.args.ends hs dma start b else none

/-- The places that a call may change. -/
def IoCall.Writes (hs : HandleState) (c : IoCall) (x : Loc) : Prop :=
  ∃ b src, c.ends hs b = some (src, x)

/-- The mapping that the call uses consists of whole pages of the controller. -/
def IoCall.aligned (hs : HandleState) (c : IoCall) : Bool :=
  match ioAdmit hs c with
  | .error _ => true
  | .ok (dma, _, _) => dma.ioaddrs.all fun a => a.toNat % hs.ctrl.pageSize == 0

/-- The mapping that the call uses has no page twice. -/
def IoCall.distinct (hs : HandleState) (c : IoCall) : Bool :=
  match ioAdmit hs c with
  | .error _ => true
  | .ok (dma, _, _) => decide dma.ioaddrs.Nodup

section Ends

variable {hs : HandleState} {c : IoCall} {dma : NvmDma} {fly : Bool} {start b : Nat}

theorem IoCall.ends_of_admit (h : ioAdmit hs c = .ok (dma, fly, start)) (hb : b < c.args.size) :
    c.ends hs b = c.args.ends hs dma start b := by
  simp only [IoCall.ends, h, if_pos hb]

theorem IoCall.ends_cases {x : Loc × Loc} (h : c.ends hs b = some x) :
    ∃ dma fly start addr, ioAdmit hs c = .ok (dma, fly, start) ∧ b < c.args.size ∧
      dma.ioaddrs[start + b / hs.ctrl.pageSize]? = some addr ∧
      moves (c.args.opcode &&& 0x7f#8) (c.args.fileOffset.toNat + b)
        (addr + BitVec.ofNat 64 (b % hs.ctrl.pageSize)) = some x := by
  unfold IoCall.ends at h
  split at h
  · cases h
  · rename_i dma fly start hadm
    split at h
    · rename_i hb
      unfold IoArgs.ends at h
      split at h
      · cases h
      · rename_i addr haddr
        exact ⟨dma, fly, start, addr, hadm, hb, haddr, h⟩
    · cases h

theorem moves_cases {op : BitVec 8} {x : Nat} {a : BitVec 64} {src dst : Loc}
    (h : moves op x a = some (src, dst)) :
    (op = NVM_IO_WRITE ∧ src = .mem a ∧ dst = .disk x) ∨
      (op = NVM_IO_READ ∧ src = .disk x ∧ dst = .mem a) := by
  unfold moves at h
  split at h
  · rename_i hop
    cases h
    exact .inl ⟨hop, rfl, rfl⟩
  · split at h
    · rename_i hop
      cases h
      exact .inr ⟨hop, rfl, rfl⟩
    · cases h

/-- No byte of a call is both a source and a destination: one side is the namespace, the other is
memory. -/
theorem IoCall.src_ne_dst {b' : Nat} {src dst src' dst' : Loc} (h : c.ends hs b = some (src, dst))
    (h' : c.ends hs b' = some (src', dst')) : src ≠ dst' := by
  obtain ⟨_, _, _, _, -, -, -, hm⟩ := IoCall.ends_cases h
  obtain ⟨_, _, _, _, -, -, -, hm'⟩ := IoCall.ends_cases h'
  rcases moves_cases hm with ⟨hw, rfl, -⟩ | ⟨hr, rfl, -⟩ <;>
    rcases moves_cases hm' with ⟨hw', -, rfl⟩ | ⟨hr', -, rfl⟩
  · simp
  · rw [hw] at hr'
    exact absurd hr' (by decide)
  · rw [hr] at hw'
    exact absurd hw' (by decide)
  · simp

/-- Two bytes at the same address of page-aligned pages are in the same page at the same offset. -/
theorem page_addr_inj {page o o' : Nat} {a a' : BitVec 64} (hp : page ∣ 2 ^ 64)
    (ha : a.toNat % page = 0) (ha' : a'.toNat % page = 0) (ho : o < page) (ho' : o' < page)
    (h : a + BitVec.ofNat 64 o = a' + BitVec.ofNat 64 o') : a = a' ∧ o = o' := by
  have hroom {x : BitVec 64} (hx : x.toNat % page = 0) : x.toNat + page ≤ 2 ^ 64 := by
    obtain ⟨k, hk⟩ := hp
    obtain ⟨m, hm⟩ := Nat.dvd_of_mod_eq_zero hx
    have hlt := x.isLt
    rw [hm, hk] at hlt
    have hmk : m < k := Nat.lt_of_mul_lt_mul_left hlt
    rw [hm, hk, ← Nat.mul_succ]
    exact Nat.mul_le_mul_left page hmk
  have hsum {x : BitVec 64} {i : Nat} (hx : x.toNat % page = 0) (hi : i < page) :
      (x + BitVec.ofNat 64 i).toNat = x.toNat + i := by
    have := hroom hx
    rw [BitVec.toNat_add, BitVec.toNat_ofNat, Nat.mod_eq_of_lt (by omega : i < 2 ^ 64),
      Nat.mod_eq_of_lt (by omega)]
  have hnat : a.toNat + o = a'.toNat + o' := by
    rw [← hsum ha ho, ← hsum ha' ho', h]
  have hoo : o = o' := by
    have := congrArg (· % page) hnat
    simp only [Nat.add_mod, ha, ha', Nat.zero_add, Nat.mod_eq_of_lt ho,
      Nat.mod_eq_of_lt ho'] at this
    exact this
  exact ⟨BitVec.eq_of_toNat_eq (by omega), hoo⟩

/-- Different bytes of a call have different destinations. -/
theorem IoCall.dst_inj {b' : Nat} {src src' dst : Loc} (hp : hs.ctrl.pageSize ∣ 2 ^ 64)
    (hal : c.aligned hs = true) (hd : c.distinct hs = true)
    (h : c.ends hs b = some (src, dst)) (h' : c.ends hs b' = some (src', dst)) : b = b' := by
  obtain ⟨dma, fly, start, a, hadm, -, ha, hm⟩ := IoCall.ends_cases h
  obtain ⟨_, _, _, a', hadm', -, ha', hm'⟩ := IoCall.ends_cases h'
  rw [hadm] at hadm'
  cases hadm'
  simp only [IoCall.aligned, hadm, List.all_eq_true, beq_iff_eq] at hal
  simp only [IoCall.distinct, hadm, decide_eq_true_eq] at hd
  rcases moves_cases hm with ⟨hw, -, rfl⟩ | ⟨hr, -, rfl⟩
  · rcases moves_cases hm' with ⟨-, -, hx⟩ | ⟨-, -, hx⟩
    · have := Loc.disk.inj hx
      omega
    · cases hx
  · rcases moves_cases hm' with ⟨-, -, hx⟩ | ⟨-, -, hx⟩
    · cases hx
    · have hpos : 0 < hs.ctrl.pageSize := Nat.pos_of_dvd_of_pos hp (by decide)
      obtain ⟨rfl, ho⟩ := page_addr_inj hp (hal a (List.mem_of_getElem? ha))
        (hal a' (List.mem_of_getElem? ha')) (Nat.mod_lt b hpos) (Nat.mod_lt b' hpos)
        (Loc.mem.inj hx)
      obtain ⟨hlt, -⟩ := List.getElem?_eq_some_iff.mp ha
      have hpage := (List.getElem?_inj hlt hd).mp (ha.trans ha'.symm)
      have hdiv : b / hs.ctrl.pageSize = b' / hs.ctrl.pageSize := by omega
      rw [← Nat.div_add_mod b hs.ctrl.pageSize, ← Nat.div_add_mod b' hs.ctrl.pageSize, hdiv, ho]

end Ends

/-! ## The command of a chunk -/

section Chunk

variable {hs : HandleState} {dma : NvmDma} {opcode : BitVec 8} {prpAddr : BitVec 64}
  {chunk lba pg : Nat} {cmd : NvmCmd} {prp : Nat → BitVec 64}

/-- A data pointer is only built from pages that exist. -/
theorem dataPtrs_pages {ioaddrs : List (BitVec 64)} {n : Nat} {prp₀ : Nat → BitVec 64}
    {x : BitVec 64 × BitVec 64 × (Nat → BitVec 64)} (hn : 1 ≤ n)
    (h : dataPtrs ioaddrs pg n prpAddr prp₀ = some x) : pg + n ≤ ioaddrs.length := by
  unfold dataPtrs at h
  split at h
  · rename_i h1
    split at h
    · rename_i a ha
      have := (List.getElem?_eq_some_iff.mp ha).1
      omega
    · cases h
  · split at h
    · rename_i h2
      split at h
      · rename_i a b ha hb
        have := (List.getElem?_eq_some_iff.mp hb).1
        omega
      · cases h
    · split at h
      · rename_i prp₁ a hf ha
        have hlast := prpFill_entries hf (n - 2) (by omega)
        have := (List.getElem?_eq_some_iff.mp hlast).1
        omega
      · cases h

/-- The command of a chunk covers as many bytes as the chunk has. -/
theorem Made.bytes (g : Geometry hs)
    (hm : Made hs dma opcode prpAddr ⟨chunk, lba, pg⟩ (cmd, prp)) (hc : 0 < chunk)
    (hle : chunk ≤ hs.maxXfer) (hb : hs.blockSize ∣ chunk) (hl : lba < 2 ^ 64) :
    cmd.slba.toNat = lba ∧ cmd.nBlocks * hs.blockSize = chunk := by
  obtain ⟨cid, prp1, prp2, prp₀, rfl, -⟩ := hm
  obtain ⟨hslba, hnb⟩ := rwCmd_blocks g hc hle hb hl opcode cid prp1 prp2
  exact ⟨hslba, by rw [hnb, Nat.div_mul_cancel hb]⟩

/-- Byte `o` of the command of a chunk is byte `o` of the chunk. -/
theorem Made.ends (g : Geometry hs) (hal : ∀ a ∈ dma.ioaddrs, a.toNat % hs.ctrl.pageSize = 0)
    (hm : Made hs dma opcode prpAddr ⟨chunk, lba, pg⟩ (cmd, prp)) (hc : 0 < chunk)
    (hle : chunk ≤ hs.maxXfer) (hb : hs.blockSize ∣ chunk) (hl : lba < 2 ^ 64) (o : Nat) :
    cmd.ends hs prpAddr prp o =
      if o < chunk then
        (dma.ioaddrs[pg + o / hs.ctrl.pageSize]?).bind fun a =>
          moves (opcode &&& 0x7f#8) (lba * hs.blockSize + o)
            (a + BitVec.ofNat 64 (o % hs.ctrl.pageSize))
      else none := by
  obtain ⟨hslba, hbytes⟩ := hm.bytes g hc hle hb hl
  obtain ⟨cid, prp1, prp2, prp₀, rfl, hd⟩ := hm
  obtain ⟨hn, hn1, hn2⟩ := g.chunkPages hc hle
  have hpages := dataPtrs_pages hn1 hd
  obtain ⟨p1, p2, l, hd', h1, h2, h3⟩ := dataPtrs_spec hn1 hpages prpAddr prp₀
  rw [hd] at hd'
  cases hd'
  have hs1 : (rwCmd hs opcode chunk lba cid prp1 prp2).prp1 = prp1 := buildRw_prp1 ..
  have hs2 : (rwCmd hs opcode chunk lba cid prp1 prp2).prp2 = prp2 := buildRw_prp2 ..
  have hop : (rwCmd hs opcode chunk lba cid prp1 prp2).opcode = opcode &&& 0x7f#8 :=
    buildRw_opcode ..
  simp only [NvmCmd.ends, hbytes, hslba, hop]
  by_cases ho : o < chunk
  · rw [if_pos ho, if_pos ho]
    have hj : o / hs.ctrl.pageSize < hs.chunkPages chunk := by
      rw [hn]
      exact div_lt_ceil g.page_pos ho
    obtain ⟨a, ha, hpa⟩ := @pageAddr_spec dma.ioaddrs pg _ hs.ctrl.pageSize
      (Post.mk 0 (rwCmd hs opcode chunk lba cid prp1 prp2) .zero prp) prpAddr hn2
      (by rw [hs1]; exact h1) (by rw [hs2]; exact h2) (by rw [hs2]; exact h3) _ hj
    have haa := hal a (List.mem_of_getElem? ha)
    have hoff : prp1.toNat % hs.ctrl.pageSize = 0 := hal prp1 (List.mem_of_getElem? h1)
    -- PRP1 has no offset, so the controller counts pages from the start of the chunk
    have hbus : (Post.mk 0 (rwCmd hs opcode chunk lba cid prp1 prp2) .zero prp).busAddrOff
        hs.ctrl.pageSize hs.blockSize prpAddr (lba * hs.blockSize + o) =
          some (a + BitVec.ofNat 64 (o % hs.ctrl.pageSize)) := by
      simp only [Post.busAddrOff, hs1, hoff, hslba, hbytes, Nat.zero_add, Nat.add_sub_cancel_left]
      rw [← hn, hpa, Option.map_some, haa]
      simp
    rw [hbus, ha]
    rfl
  · rw [if_neg ho, if_neg ho]

end Chunk

/-! ## Where a call stands -/

/-- The cursors of the loop agree with `bytes_done`, which is inside a page only at the end. -/
structure Cursor (hs : HandleState) (a : IoArgs) (start : Nat) (l : IoLocals) : Prop where
  lba : l.lba = a.fileOffset.toNat / hs.blockSize + l.bytesDone / hs.blockSize
  page : l.page = start + (l.bytesDone + hs.ctrl.pageSize - 1) / hs.ctrl.pageSize
  le : l.bytesDone ≤ a.size
  block : hs.blockSize ∣ l.bytesDone
  whole : l.bytesDone = a.size ∨ hs.ctrl.pageSize ∣ l.bytesDone

section Cursor

variable {hs : HandleState} {a : IoArgs} {start : Nat} {l : IoLocals}

theorem Cursor.initial (g : Geometry hs) (ph : Phase) :
    Cursor hs a start ⟨0, a.fileOffset.toNat / hs.blockSize, start, ph⟩ := by
  have hp := g.page_pos
  refine ⟨?_, ?_, Nat.zero_le _, Nat.dvd_zero _, .inr (Nat.dvd_zero _)⟩
  · simp
  · have hlt : (0 + hs.ctrl.pageSize - 1) / hs.ctrl.pageSize = 0 := Nat.div_eq_of_lt (by omega)
    simp only [hlt, Nat.add_zero]

theorem Cursor.phase (h : Cursor hs a start l) (ph : Phase) :
    Cursor hs a start { l with phase := ph } := ⟨h.lba, h.page, h.le, h.block, h.whole⟩

/-- Where the pages of the next chunk start. -/
theorem Cursor.page_eq (h : Cursor hs a start l) (g : Geometry hs) (hlt : l.bytesDone < a.size) :
    l.page = start + l.bytesDone / hs.ctrl.pageSize ∧ hs.ctrl.pageSize ∣ l.bytesDone := by
  have hdvd := h.whole.resolve_left (by omega)
  refine ⟨?_, hdvd⟩
  obtain ⟨k, hk⟩ := hdvd
  rw [h.page, hk, ceil_mul g.page_pos, Nat.mul_div_cancel_left k g.page_pos]

/-- The next chunk is a positive number of blocks that one command can cover. -/
theorem Cursor.chunk (h : Cursor hs a start l) (g : Geometry hs) (hb : 2 ≤ hs.blockSize)
    (hlt : l.bytesDone < a.size) (hsz : hs.blockSize ∣ a.size) {chunk : Nat}
    (hc : chunk = hs.chunkSize (a.size - l.bytesDone)) :
    0 < chunk ∧ l.bytesDone + chunk ≤ a.size ∧ chunk ≤ hs.maxXfer ∧ hs.blockSize ∣ chunk ∧
      l.lba < 2 ^ 64 := by
  have hrem : 0 < a.size - l.bytesDone := by omega
  obtain ⟨hc0, hcle, hcmax, hcb, -⟩ := g.chunk hrem (Nat.dvd_sub hsz h.block)
  rw [← hc] at hc0 hcle hcmax hcb
  refine ⟨hc0, by omega, hcmax, hcb, ?_⟩
  have h1 := a.fileOffset_lt
  have h2 := a.size_lt
  have h3 : a.fileOffset.toNat / hs.blockSize ≤ a.fileOffset.toNat / 2 :=
    Nat.div_le_div_left hb (by decide)
  have h4 : l.bytesDone / hs.blockSize ≤ l.bytesDone / 2 := Nat.div_le_div_left hb (by decide)
  have h5 := h.lba
  omega

/-- A turn of the loop moves the cursors together. -/
theorem Cursor.next (h : Cursor hs a start l) (g : Geometry hs) (hlt : l.bytesDone < a.size)
    (hsz : hs.blockSize ∣ a.size) {chunk : Nat} (hc : chunk = hs.chunkSize (a.size - l.bytesDone))
    (ph : Phase) :
    Cursor hs a start ⟨l.bytesDone + chunk, l.lba + chunk / hs.blockSize,
      l.page + hs.chunkPages chunk, ph⟩ := by
  have hrem : 0 < a.size - l.bytesDone := by omega
  obtain ⟨hc0, hcle, hcmax, hcb, hcend⟩ := g.chunk hrem (Nat.dvd_sub hsz h.block)
  rw [← hc] at hc0 hcle hcmax hcb hcend
  obtain ⟨hn, -, -⟩ := g.chunkPages hc0 hcmax
  obtain ⟨hpage, k, hk⟩ := h.page_eq g hlt
  refine ⟨?_, ?_, by simp only; omega, Nat.dvd_add h.block hcb, ?_⟩
  · obtain ⟨m, hm⟩ := h.block
    simp only
    rw [h.lba, Nat.add_assoc, hm, Nat.mul_add_div g.block_pos, Nat.mul_div_cancel_left m g.block_pos]
  · have hsplit : l.bytesDone + chunk + hs.ctrl.pageSize - 1 =
        hs.ctrl.pageSize * k + (chunk + hs.ctrl.pageSize - 1) := by
      have := g.page_pos
      omega
    simp only
    rw [hsplit, Nat.mul_add_div g.page_pos, hpage, hn, hk, Nat.mul_div_cancel_left k g.page_pos]
    omega
  · rcases hcend with h1 | h2
    · exact .inl (by simp only; omega)
    · exact .inr (Nat.dvd_add ⟨k, hk⟩ h2)

end Cursor

namespace Threads

/-- The holder of a lock is in its critical section, with its cursors in place. -/
structure Cursors (hs₀ : HandleState) (s : Threads) : Prop where
  owned : ∀ i j, s.owner i = some j →
    ∃ c dma l, s.calls[j]? = some c ∧ c.qp = i ∧ c.stage = .inside dma l
  cursor : ∀ (j : Nat) (c : IoThread) dma l, s.calls[j]? = some c → c.stage = .inside dma l →
    ∃ fly start, ioAdmit hs₀ c.io = .ok (dma, fly, start) ∧ Cursor hs₀ c.io.args start l

section Cursors

variable {hs₀ : HandleState} {s s' : Threads}

theorem Cursors.init (hs₀ : HandleState) : Cursors hs₀ (init hs₀) :=
  ⟨fun _ _ h => by simp [Threads.init] at h, fun _ _ _ _ h => by simp [Threads.init] at h⟩

/-- Call `j` is replaced, on the same pair. -/
theorem Cursors.set (h : Cursors hs₀ s) {j : Nat} {c c' : IoThread} {owner : Nat → Option Nat}
    {hs : HandleState} (hc : s.calls[j]? = some c) (hqp : c'.qp = c.qp)
    (howner : ∀ i, i ≠ c.qp → owner i = s.owner i)
    (hmine : ∀ j', owner c.qp = some j' → j' = j ∧ ∃ dma l, c'.stage = .inside dma l)
    (hcur : ∀ dma l, c'.stage = .inside dma l →
      ∃ fly start, ioAdmit hs₀ c'.io = .ok (dma, fly, start) ∧ Cursor hs₀ c'.io.args start l) :
    Cursors hs₀ ⟨hs, owner, s.calls.set j c'⟩ := by
  have hlt := (List.getElem?_eq_some_iff.mp hc).1
  refine ⟨?_, ?_⟩
  · intro i j' hown
    by_cases hi : i = c.qp
    · subst hi
      obtain ⟨rfl, dma, l, hst⟩ := hmine j' hown
      exact ⟨c', dma, l, List.getElem?_set_self hlt, hqp, hst⟩
    · have hown' : owner i = some j' := hown
      rw [howner i hi] at hown'
      obtain ⟨c'', dma, l, hc'', hq, hst⟩ := h.owned i j' hown'
      have hne : j' ≠ j := by
        rintro rfl
        rw [hc] at hc''
        cases hc''
        exact hi hq.symm
      exact ⟨c'', dma, l, (List.getElem?_set_ne (Ne.symm hne)).trans hc'', hq, hst⟩
  · intro j' c'' dma l hc'' hst
    by_cases hj : j' = j
    · subst hj
      have hc'' : (s.calls.set j' c')[j']? = some c'' := hc''
      rw [List.getElem?_set_self hlt] at hc''
      cases hc''
      exact hcur dma l hst
    · have hc'' : (s.calls.set j c')[j']? = some c'' := hc''
      rw [List.getElem?_set_ne (Ne.symm hj)] at hc''
      exact h.cursor j' c'' dma l hc'' hst

theorem step_cursors_enter (h : Cursors hs₀ s) {io : IoCall} (hs : s.step (.enter io) = some s') :
    Cursors hs₀ s' := by
  obtain ⟨stage, rr, rfl, hstage⟩ := step_enter hs
  have hnot : ∀ dma l, stage ≠ .inside dma l := by
    rintro dma l rfl
    rcases hstage with ⟨e, -, he⟩ | ⟨_, _, _, -, he⟩ <;> cases he
  refine ⟨?_, ?_⟩
  · intro i j hown
    obtain ⟨c, dma, l, hc, hq, hst⟩ := h.owned i j hown
    have hlt := (List.getElem?_eq_some_iff.mp hc).1
    exact ⟨c, dma, l, (List.getElem?_append_left hlt).trans hc, hq, hst⟩
  · intro j c dma l hc hst
    exact forall_snoc (P := fun _ c => ∀ dma l, c.stage = .inside dma l → ∃ fly start,
        ioAdmit hs₀ c.io = .ok (dma, fly, start) ∧ Cursor hs₀ c.io.args start l)
      (fun k x hx dma l => h.cursor k x dma l hx) (fun dma l hst => absurd hst (hnot dma l))
      j c hc dma l hst

theorem step_cursors_lock (g : Geometry hs₀) (hsound : Sound hs₀ s) (h : Cursors hs₀ s) {j : Nat}
    (hs : s.step (.lock j) = some s') : Cursors hs₀ s' := by
  obtain ⟨c, dma, start, hc, hst, hfree, rfl⟩ := step_lock hs
  obtain ⟨q, hq, hok⟩ := hsound.call j c hc
  simp only [CallOk, hst] at hok
  obtain ⟨⟨fly, hadm⟩, -⟩ := hok
  refine h.set hc rfl (fun i hi => Function.update_of_ne hi _ _) ?_ ?_
  · intro j' hj'
    rw [Function.update_self] at hj'
    exact ⟨(Option.some.inj hj').symm, _, _, rfl⟩
  · intro dma' l hl
    cases hl
    have hblock : s.hs.blockSize = hs₀.blockSize := by rw [hsound.static]
    rw [hblock]
    exact ⟨fly, start, hadm, Cursor.initial g _⟩

/-- Where a step of its own leads a call: its cursors stay, or a chunk is done. -/
theorem Inside.cursor {hs : HandleState} {pair : Qp} {c : IoThread} {dma : NvmDma}
    {l l' : IoLocals} {ds : List Post} {i n start : Nat} {t : Turn} (g : Geometry hs)
    (h : Inside (hs.startingAt i) pair c dma l ds n) (hsz : hs.blockSize ∣ c.io.args.size)
    (hcur : Cursor hs c.io.args start l)
    (he : l.advance (hs.startingAt i) dma c.io.args.opcode c.io.args.size pair = some t)
    (hnext : t.next = .loop l') : Cursor hs c.io.args start l' := by
  have hph := h.phase
  cases hphase : l.phase with
  | top =>
    simp only [IoLocals.advance, hphase] at he
    split at he
    · cases he
      cases hnext
    · split at he
      · cases he
        cases hnext
      · split at he
        · cases he
          cases hnext
          exact hcur.phase _
        · split at he
          · cases he
          · cases he
            cases hnext
            exact hcur.phase _
  | full left => simp only [AtPhase, hphase] at hph
  | sent chunk left =>
    simp only [AtPhase, hphase] at hph
    obtain ⟨-, -, hlt, hc, -⟩ := hph
    simp only [IoLocals.advance, hphase, Option.some.injEq] at he
    simp only [IoLocals.poll] at he
    split at he
    · subst he
      simp only at hnext
      split at hnext
      · cases hnext
      · cases hnext
        exact hcur.next g hlt hsz hc _
    · split at he
      · subst he
        cases hnext
      · subst he
        cases hnext
        exact hcur.phase _

theorem step_cursors_advance (g : Geometry hs₀) (hsound : Sound hs₀ s) (h : Cursors hs₀ s) {j : Nat}
    (hs : s.step (.advance j) = some s') : Cursors hs₀ s' := by
  obtain ⟨c, dma, l, q, t, hc, hst, hq, he, rfl⟩ := step_advance hs
  obtain ⟨hmine, ds, n, hin⟩ := hsound.inside hc hst hq
  obtain ⟨fly, start, hadm, hcur⟩ := h.cursor j c dma l hc hst
  have hsz : hs₀.blockSize ∣ c.io.args.size :=
    Nat.dvd_of_mod_eq_zero (ioAdmit_ok hadm).1.size_block
  rw [hsound.advance_eq (i := c.qp)] at he
  have hown {j' : Nat} (hj' : s.owner c.qp = some j') : j' = j := by
    rw [hmine] at hj'
    exact (Option.some.inj hj').symm
  refine h.set hc rfl ?_ ?_ ?_
  · intro i hi
    cases t.next with
    | loop _ => rfl
    | out _ => exact Function.update_of_ne hi _ _
  · intro j' hj'
    cases hnext : t.next with
    | loop l' =>
      simp only [hnext] at hj'
      exact ⟨hown hj', dma, l', by simp only [advanced, hnext]⟩
    | out ret =>
      simp only [hnext, Function.update_self] at hj'
      cases hj'
  · intro dma' l' hl'
    cases hnext : t.next with
    | loop l'' =>
      simp only [advanced, hnext, Stage.inside.injEq] at hl'
      obtain ⟨rfl, rfl⟩ := hl'
      have hcur' := hin.cursor g hsz hcur he hnext
      exact ⟨fly, start, hadm, hcur'⟩
    | out ret => simp [advanced, hnext] at hl'

theorem step_cursors (g : Geometry hs₀) (hsound : Sound hs₀ s) (h : Cursors hs₀ s) {m : Move}
    (hs : s.step m = some s') : Cursors hs₀ s' := by
  cases m with
  | enter io => exact step_cursors_enter h hs
  | lock j => exact step_cursors_lock g hsound h hs
  | advance j => exact step_cursors_advance g hsound h hs
  | device i a =>
    obtain ⟨q, -, rfl⟩ := step_device hs
    exact ⟨h.owned, h.cursor⟩

/-- A command in the controller's hands is the one that the holder of the lock waits for, and moves
bytes of the chunk it stands for. -/
theorem fetched_ends (g : Geometry hs₀) (hb : 2 ≤ hs₀.blockSize) (hsound : Sound hs₀ s)
    (h : Cursors hs₀ s) {i k seq : Nat} {cmd : NvmCmd} {q : IOQueuePair}
    (hq : s.hs.qps[i]? = some q) (hf : q.pair.fetched[k]? = some (seq, cmd)) :
    ∃ j c dma l chunk left, s.owner i = some j ∧ s.calls[j]? = some c ∧ c.qp = i ∧
      c.stage = .inside dma l ∧ l.phase = .sent chunk left ∧ seq + 1 = q.pair.cmds.length ∧
      (c.io.aligned hs₀ = true → ∀ o, cmd.ends hs₀ q.pair.prpAddr q.pair.prp o =
        if o < chunk then c.io.ends hs₀ (l.bytesDone + o) else none) := by
  cases hown : s.owner i with
  | none =>
    have hidle := (hsound.free i q hq hown).idle rfl
    rw [hidle.facts.2.2] at hf
    cases hf
  | some j =>
    obtain ⟨c, dma, l, hc, rfl, hst⟩ := h.owned i j hown
    obtain ⟨-, ds, n, hin⟩ := hsound.inside hc hst hq
    obtain ⟨fly, start, hadm, hcur⟩ := h.cursor j c dma l hc hst
    obtain ⟨-, rfl⟩ := hin.serial.fetched_seq hf
    have hph := hin.phase
    cases hphase : l.phase with
    | top =>
      simp only [AtPhase, hphase] at hph
      rw [(hin.serial.idle hph.1).facts.2.2] at hf
      cases hf
    | full left => simp only [AtPhase, hphase] at hph
    | sent chunk left =>
      simp only [AtPhase, hphase] at hph
      obtain ⟨hlen, -, hlt, hc', hne, cmd', hcmd, hmade⟩ := hph
      have hcc := hin.serial.inv.fcmd _ (List.mem_of_getElem? hf)
      simp only at hcc
      rw [hcmd] at hcc
      cases hcc
      refine ⟨j, c, dma, l, chunk, left, rfl, hc, rfl, hst, hphase, hlen.symm, fun hal o => ?_⟩
      obtain ⟨hv, -⟩ := ioAdmit_ok hadm
      have hsz : hs₀.blockSize ∣ c.io.args.size := Nat.dvd_of_mod_eq_zero hv.size_block
      have hc' : chunk = hs₀.chunkSize (c.io.args.size - l.bytesDone) := hc'
      obtain ⟨hc0, hcle, hcmax, hcb, hlba⟩ := hcur.chunk g hb hlt hsz hc'
      simp only [IoCall.aligned, hadm, List.all_eq_true, beq_iff_eq] at hal
      obtain ⟨hpage, m, hm⟩ := hcur.page_eq g hlt
      have hmade : Made hs₀ dma c.io.args.opcode q.pair.prpAddr ⟨chunk, l.lba, l.page⟩
          (cmd, q.pair.prp) := hmade
      rw [hmade.ends g hal hc0 hcmax hcb hlba o]
      by_cases ho : o < chunk
      · rw [if_pos ho, if_pos ho, IoCall.ends_of_admit hadm (by omega)]
        -- `bytes_done` is a whole number of pages and of blocks
        have hdiv : start + (l.bytesDone + o) / hs₀.ctrl.pageSize =
            l.page + o / hs₀.ctrl.pageSize := by
          rw [hpage, hm, Nat.mul_add_div g.page_pos, Nat.mul_div_cancel_left m g.page_pos]
          omega
        have hmod : (l.bytesDone + o) % hs₀.ctrl.pageSize = o % hs₀.ctrl.pageSize := by
          rw [hm, Nat.mul_add_mod]
        have hx : l.lba * hs₀.blockSize = c.io.args.fileOffset.toNat + l.bytesDone := by
          rw [hcur.lba, Nat.add_mul, Nat.div_mul_cancel (Nat.dvd_of_mod_eq_zero hv.file_block),
            Nat.div_mul_cancel hcur.block]
        rw [IoArgs.ends, hdiv, hmod, hx, Nat.add_assoc]
        cases dma.ioaddrs[l.page + o / hs₀.ctrl.pageSize]? with
        | none => rfl
        | some a => rfl
      · rw [if_neg ho, if_neg ho]

end Cursors

end Threads

end UGDS
