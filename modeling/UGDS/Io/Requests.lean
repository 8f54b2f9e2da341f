import UGDS.Io.Calls

/-!
# UGDS.Io.Requests

What a transfer asks of the controller, without the queue pair: the chunks into which `do_io` cuts
it (`ioReqs`), and the commands that stand for them (`Made`).

* `ioLoop_reqs`: on any queue pair, the commands that a call submits are those of the first few
  chunks, in order.
* `ioReqs_chunk_le`: the first chunk is the largest.
-/

namespace UGDS

open Nvm Lib

/-- One turn of the loop: `chunk_size`, `current_lba` and `current_page`. -/
structure Req where
  chunk : Nat
  lba : Nat
  page : Nat
  deriving DecidableEq, Repr

/-- The turns of `while (bytes_done < size)` when all of them succeed. -/
def ioReqs (hs : HandleState) (size : Nat) : (fuel bytesDone lba page : Nat) → List Req
  | 0, _, _, _ => []
  | fuel + 1, bytesDone, lba, page =>
    if size ≤ bytesDone then []
    else
      let chunk := hs.chunkSize (size - bytesDone)
      if chunk = 0 then []
      else
        ⟨chunk, lba, page⟩ :: ioReqs hs size fuel (bytesDone + chunk) (lba + chunk / hs.blockSize)
          (page + hs.chunkPages chunk)

/-- The command and the list page made for a request. `prp` is the list page before. -/
def Made (hs : HandleState) (dma : NvmDma) (opcode : BitVec 8) (prpAddr : BitVec 64) (r : Req)
    (x : NvmCmd × (Nat → BitVec 64)) : Prop :=
  ∃ cid prp1 prp2 prp, x.1 = rwCmd hs opcode r.chunk r.lba cid prp1 prp2 ∧
    dataPtrs dma.ioaddrs r.page (hs.chunkPages r.chunk) prpAddr prp = some (prp1, prp2, x.2)

section

variable {dev : Device} {hs : HandleState} {dma : NvmDma} {opcode : BitVec 8} {qp q : Qp}
  {n t t' : Nat}

theorem ioReqs_cons {size bytesDone : Nat} (hlt : bytesDone < size)
    (hne : hs.chunkSize (size - bytesDone) ≠ 0) (fuel lba page : Nat) :
    ioReqs hs size (fuel + 1) bytesDone lba page =
      ⟨hs.chunkSize (size - bytesDone), lba, page⟩ ::
        ioReqs hs size fuel (bytesDone + hs.chunkSize (size - bytesDone))
          (lba + hs.chunkSize (size - bytesDone) / hs.blockSize)
          (page + hs.chunkPages (hs.chunkSize (size - bytesDone))) := by
  simp only [ioReqs, if_neg (by omega : ¬size ≤ bytesDone), if_neg hne]

/-- One turn makes the command of its request, or none and then the call is over. -/
theorem ioChunk_made {chunk lba page : Nat} {ok : Bool} (h : qp.Inv n)
    (he : ioChunk dev hs dma opcode chunk lba page t qp = some (ok, t', q)) :
    (ok = false ∧ q.cmds = qp.cmds ∧ q.lists = qp.lists) ∨
      ∃ cmd, q.cmds = qp.cmds ++ [cmd] ∧ q.lists = qp.lists ++ [q.prp] ∧
        Made hs dma opcode qp.prpAddr ⟨chunk, lba, page⟩ (cmd, q.prp) := by
  obtain ⟨-, -, hsend, hok⟩ := ioChunk_spec h he
  rcases hsend with ⟨hc, hl, -⟩ | ⟨cid, prp1, prp2, hc, hl, hd⟩
  · refine .inl ⟨?_, hc, hl⟩
    cases ok with
    | false => rfl
    | true => exact absurd hc (hok rfl)
  · exact .inr ⟨_, hc, hl, cid, prp1, prp2, qp.prp, rfl, hd⟩

/-- The commands of a call are those of its first requests. -/
theorem ioLoop_reqs {size fuel bytesDone lba page : Nat} {ret : Int} (h : qp.Inv n)
    (he : ioLoop dev hs dma opcode size fuel bytesDone lba page t qp = some (ret, t', q)) :
    ∃ reqs new, reqs <+: ioReqs hs size fuel bytesDone lba page ∧
      q.cmds = qp.cmds ++ new.map Prod.fst ∧ q.lists = qp.lists ++ new.map Prod.snd ∧
      List.Forall₂ (Made hs dma opcode qp.prpAddr) reqs new := by
  induction fuel using Nat.strongRecOn generalizing bytesDone lba page t qp n with
  | ind fuel ih =>
    rcases ioLoop_cases he with ⟨-, -, rfl⟩ | ⟨-, rfl, -⟩ |
      ⟨fuel', chunk, rfl, hc, -, hlt, rfl, hne⟩ | ⟨fuel', chunk, t₁, q₁, rfl, hc, hl, hlt, rfl, hne⟩
    · exact ⟨[], [], List.nil_prefix, by simp, by simp, .nil⟩
    · exact ⟨[], [], List.nil_prefix, by simp, by simp, .nil⟩
    · rw [ioReqs_cons hlt hne]
      rcases ioChunk_made h hc with ⟨-, hcm, hli⟩ | ⟨cmd, hcm, hli, hmade⟩
      · exact ⟨[], [], List.nil_prefix, by simp [hcm], by simp [hli], .nil⟩
      · exact ⟨[_], [(cmd, q.prp)], List.cons_prefix_cons.mpr ⟨rfl, List.nil_prefix⟩, by simp [hcm],
          by simp [hli], .cons hmade .nil⟩
    · rw [ioReqs_cons hlt hne]
      obtain ⟨⟨n₁, hi⟩, hg, -⟩ := ioChunk_spec h hc
      obtain ⟨reqs, new, hpre, hcs, hls, hall⟩ := ih fuel' (Nat.lt_succ_self fuel') hi hl
      rw [hg.prpAddr] at hall
      rcases ioChunk_made h hc with ⟨hf, -⟩ | ⟨cmd, hcm, hli, hmade⟩
      · cases hf
      · exact ⟨_ :: reqs, (cmd, q₁.prp) :: new, List.cons_prefix_cons.mpr ⟨rfl, hpre⟩,
          by simp [hcs, hcm], by simp [hls, hli], .cons hmade hall⟩

/-- Chunks get no larger. -/
theorem ioReqs_chunk_le {size fuel bytesDone lba page : Nat} {r : Req}
    (h : r ∈ ioReqs hs size fuel bytesDone lba page) :
    r.chunk ≠ 0 ∧ hs.blockSize ∣ r.chunk ∧ r.chunk ≤ hs.chunkSize (size - bytesDone) := by
  induction fuel generalizing bytesDone lba page with
  | zero => cases h
  | succ fuel ih =>
    simp only [ioReqs] at h
    split at h
    · cases h
    split at h
    · cases h
    · rename_i hne
      rcases List.mem_cons.mp h with rfl | h
      · exact ⟨hne, Nat.dvd_mul_left _ _, le_rfl⟩
      · obtain ⟨h1, h2, h3⟩ := ih h
        refine ⟨h1, h2, h3.trans ?_⟩
        exact Nat.mul_le_mul_right _ (Nat.div_le_div_right (by omega))

/-- The first request is the first chunk of the whole transfer. -/
theorem ioReqs_first {size fuel lba page : Nat} {r : Req} {reqs : List Req}
    (h : r :: reqs <+: ioReqs hs size fuel 0 lba page) : r.chunk = hs.chunkSize size := by
  cases fuel with
  | zero => cases List.prefix_nil.mp h
  | succ fuel =>
    simp only [ioReqs] at h
    split at h
    · cases List.prefix_nil.mp h
    split at h
    · cases List.prefix_nil.mp h
    · obtain ⟨rfl, -⟩ := List.cons_prefix_cons.mp h
      rfl

end

end UGDS
