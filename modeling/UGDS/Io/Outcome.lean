import UGDS.Io.Requests
import UGDS.Nvm.Serial

/-!
# UGDS.Io.Outcome

What the transfer loop of `do_io` does, told by the completions it consumes and without the queue
pair it runs on.

* `LoopOutcome`: from given values of `bytes_done`, `current_lba` and `current_page`, the loop consumes
  the completions `ds` and returns.
* `LoopOutcome.alone`: an outcome is repeated by `ioLoop` on any idle queue pair whose controller
  answers with the same statuses: the same result, and commands that differ in their identifiers
  only (`SameTurn`).
-/

namespace UGDS

open Nvm Lib

/-! ## The data pointer does not depend on the old list page -/

theorem prpFill_entries {ioaddrs : List (BitVec 64)} {page k : Nat} {prp prp' : Nat → BitVec 64}
    (h : prpFill ioaddrs page k prp = some prp') :
    ∀ j, j < k → ioaddrs[page + (j + 1)]? = some (prp' j) := by
  induction k generalizing prp' with
  | zero => intro j hj; omega
  | succ k ih =>
    simp only [prpFill] at h
    split at h
    · rename_i prp₁ addr h₁ hk
      cases h
      intro j hj
      by_cases hjk : j = k
      · subst hjk
        rw [hk, Function.update_self]
      · rw [Function.update_of_ne hjk]
        exact ih h₁ j (by omega)
    · cases h

theorem prpFill_defined {ioaddrs : List (BitVec 64)} {page k : Nat} {prp prp₁ : Nat → BitVec 64}
    (h : prpFill ioaddrs page k prp = some prp₁) (prp' : Nat → BitVec 64) :
    ∃ prp₂, prpFill ioaddrs page k prp' = some prp₂ := by
  induction k generalizing prp₁ with
  | zero => exact ⟨prp', rfl⟩
  | succ k ih =>
    simp only [prpFill] at h
    split at h
    · rename_i prp₃ addr h₃ hk
      obtain ⟨prp₂, h₂⟩ := ih h₃
      exact ⟨_, by simp only [prpFill, h₂, hk]; rfl⟩
    · cases h

section DataPtrs

variable {ioaddrs : List (BitVec 64)} {page n : Nat} {prpAddr p₁ p₂ p₁' p₂' : BitVec 64}
  {prp prp' l l' : Nat → BitVec 64}

theorem dataPtrs_defined (h : dataPtrs ioaddrs page n prpAddr prp = some (p₁, p₂, l))
    (prp' : Nat → BitVec 64) : ∃ x, dataPtrs ioaddrs page n prpAddr prp' = some x := by
  unfold dataPtrs at h ⊢
  split at h
  · rename_i h1
    rw [if_pos h1]
    split at h
    · exact ⟨_, rfl⟩
    · cases h
  · rename_i h1
    rw [if_neg h1]
    split at h
    · rename_i h2
      rw [if_pos h2]
      split at h
      · exact ⟨_, rfl⟩
      · cases h
    · rename_i h2
      rw [if_neg h2]
      split at h
      · rename_i prp₁ a hf ha
        obtain ⟨prp₂, hf'⟩ := prpFill_defined hf prp'
        exact ⟨_, by simp only [hf', ha]; rfl⟩
      · cases h

theorem dataPtrs_agree (h : dataPtrs ioaddrs page n prpAddr prp = some (p₁, p₂, l))
    (h' : dataPtrs ioaddrs page n prpAddr prp' = some (p₁', p₂', l')) :
    p₁ = p₁' ∧ p₂ = p₂' ∧ (3 ≤ n → ∀ j, j + 1 < n → l j = l' j) := by
  unfold dataPtrs at h h'
  by_cases h1 : n = 1
  · rw [if_pos h1] at h h'
    split at h
    · rename_i a ha
      rw [ha] at h'
      cases h
      cases h'
      exact ⟨rfl, rfl, by omega⟩
    · cases h
  · rw [if_neg h1] at h h'
    by_cases h2 : n = 2
    · rw [if_pos h2] at h h'
      split at h
      · rename_i a b ha hb
        rw [ha, hb] at h'
        cases h
        cases h'
        exact ⟨rfl, rfl, by omega⟩
      · cases h
    · rw [if_neg h2] at h h'
      split at h
      · rename_i q a hf ha
        split at h'
        · rename_i q' a' hf' ha'
          cases h
          cases h'
          rw [ha] at ha'
          refine ⟨Option.some.inj ha', rfl, fun _ j hj => ?_⟩
          have e := prpFill_entries hf j (by omega)
          rw [prpFill_entries hf' j (by omega)] at e
          exact (Option.some.inj e).symm
        · cases h'
      · cases h

end DataPtrs

/-! ## Outcomes -/

/-- `none` is undefined behaviour: a page of the chunk is beyond `ioaddrs`. -/
inductive LoopOutcome (hs : HandleState) (dma : NvmDma) (opcode : BitVec 8) (size : Nat)
    (prpAddr : BitVec 64) : Nat → Nat → Nat → List Post → Option Int → Prop where
  | done {bytesDone lba page : Nat} : size ≤ bytesDone →
      LoopOutcome hs dma opcode size prpAddr bytesDone lba page [] (some (ssize bytesDone))
  | small {bytesDone lba page : Nat} : bytesDone < size → hs.chunkSize (size - bytesDone) = 0 →
      LoopOutcome hs dma opcode size prpAddr bytesDone lba page [] (some (-Errno.EINVAL.code))
  | undef {bytesDone lba page chunk : Nat} : bytesDone < size →
      chunk = hs.chunkSize (size - bytesDone) → chunk ≠ 0 →
      (∀ prp, dataPtrs dma.ioaddrs page (hs.chunkPages chunk) prpAddr prp = none) →
      LoopOutcome hs dma opcode size prpAddr bytesDone lba page [] none
  | failed {bytesDone lba page chunk : Nat} {d : Post} : bytesDone < size →
      chunk = hs.chunkSize (size - bytesDone) → chunk ≠ 0 →
      Made hs dma opcode prpAddr ⟨chunk, lba, page⟩ (d.cmd, d.prp) → d.cpl.status ≠ 0 →
      LoopOutcome hs dma opcode size prpAddr bytesDone lba page [d] (some (-Errno.code Errno.EIO))
  | turn {bytesDone lba page chunk : Nat} {d : Post} {ds : List Post} {o : Option Int} :
      bytesDone < size → chunk = hs.chunkSize (size - bytesDone) → chunk ≠ 0 →
      Made hs dma opcode prpAddr ⟨chunk, lba, page⟩ (d.cmd, d.prp) → d.cpl.status = 0 →
      LoopOutcome hs dma opcode size prpAddr (bytesDone + chunk) (lba + chunk / hs.blockSize)
        (page + hs.chunkPages chunk) ds o →
      LoopOutcome hs dma opcode size prpAddr bytesDone lba page (d :: ds) o

/-- Two commands for the same turn `r`: they are equal but for the identifier, and so are the
entries of the list page that they use. -/
structure SameTurn (hs : HandleState) (r : Req) (d d' : Post) : Prop where
  cmd : ∃ opcode cid cid' prp1 prp2, d.cmd = rwCmd hs opcode r.chunk r.lba cid prp1 prp2 ∧
    d'.cmd = rwCmd hs opcode r.chunk r.lba cid' prp1 prp2
  list : 3 ≤ hs.chunkPages r.chunk → ∀ j, j + 1 < hs.chunkPages r.chunk → d.prp j = d'.prp j

theorem Made.same {hs : HandleState} {dma : NvmDma} {opcode : BitVec 8} {prpAddr : BitVec 64}
    {r : Req} {d d' : Post} (h : Made hs dma opcode prpAddr r (d.cmd, d.prp))
    (h' : Made hs dma opcode prpAddr r (d'.cmd, d'.prp)) : SameTurn hs r d d' := by
  obtain ⟨cid, prp1, prp2, prp, hc, hd⟩ := h
  obtain ⟨cid', prp1', prp2', prp', hc', hd'⟩ := h'
  obtain ⟨rfl, rfl, hl⟩ := dataPtrs_agree hd hd'
  exact ⟨⟨opcode, cid, cid', prp1, prp2, hc, hc'⟩, hl⟩

section Alone

variable {dev : Device} {st : Nat → BitVec 32} {hs : HandleState} {dma : NvmDma}
  {opcode : BitVec 8} {size : Nat} {prpAddr : BitVec 64}

/-- One turn on an idle pair, with a controller that answers. -/
theorem ioChunk_answers {qp : Qp} {chunk page : Nat} {x : BitVec 64 × BitVec 64 × (Nat → BitVec 64)}
    (hdev : dev.Answers hs.spins st) (h : qp.Idle) (ha : qp.Answered st)
    (hd : dataPtrs dma.ioaddrs page (hs.chunkPages chunk) qp.prpAddr qp.prp = some x)
    (lba t : Nat) :
    ∃ t' q d, ioChunk dev hs dma opcode chunk lba page t qp =
        some (decide (d.cpl.status = 0), t', q) ∧ q.Idle ∧ q.Answered st ∧
      q.prpAddr = qp.prpAddr ∧ q.cmds.length = qp.cmds.length + 1 ∧
      q.posted = qp.posted ++ [d] ∧ d.cpl.status = st qp.cmds.length ∧
      Made hs dma opcode qp.prpAddr ⟨chunk, lba, page⟩ (d.cmd, d.prp) := by
  obtain ⟨prp1, prp2, prp⟩ := x
  obtain ⟨slot, r, he, hi⟩ := h.issue h.has_room
  let cmd := rwCmd hs opcode chunk lba (nvmDefaultCid r.q) prp1 prp2
  have hiss : ioIssue hs dma opcode chunk lba page slot { qp with sq := r } =
      some (({ qp with sq := r, prp := prp } : Qp).put slot cmd).submit := by
    simp only [ioIssue, hd]
    rfl
  have hslot : drainEnqueue dev hs.spins 2 t qp = some (some slot, t, { qp with sq := r }) := by
    simp only [drainEnqueue, he]
  obtain ⟨cpl, t', q, hp, hst, hq, hqa, hqc, hqd, hqp⟩ := hdev.exec h ha (hi prp cmd) rfl rfl t
  refine ⟨t', q.retire, ⟨qp.cmds.length, cmd, cpl, prp⟩, ioChunk_completed hslot hiss hp, hq, hqa,
    hqd, ?_, hqp, hst, nvmDefaultCid r.q, prp1, prp2, qp.prp, rfl, hd⟩
  rw [hqc]
  simp [Qp.put, Qp.submit]

theorem ioChunk_undef {qp : Qp} {chunk page : Nat} (h : qp.Idle)
    (hd : dataPtrs dma.ioaddrs page (hs.chunkPages chunk) qp.prpAddr qp.prp = none)
    (lba t : Nat) : ioChunk dev hs dma opcode chunk lba page t qp = none := by
  obtain ⟨slot, r, he, -⟩ := h.issue h.has_room
  simp only [ioChunk, drainEnqueue, he, ioIssue, hd]

/-- The bytes left after a turn need one turn less. -/
theorem chunkSize_fuel {rem fuel : Nat} (hne : hs.chunkSize rem ≠ 0) (hb : hs.blockSize ∣ rem)
    (hf : rem / hs.blockSize ≤ fuel + 1) :
    hs.blockSize ∣ rem - hs.chunkSize rem ∧ (rem - hs.chunkSize rem) / hs.blockSize ≤ fuel := by
  have hdvd : hs.blockSize ∣ hs.chunkSize rem := Nat.dvd_mul_left _ _
  have hle : hs.chunkSize rem ≤ rem := (Nat.div_mul_le_self _ _).trans (min_le_left _ _)
  have hpos : 0 < hs.blockSize := Nat.pos_of_ne_zero fun h0 => hne (by simp [HandleState.chunkSize, h0])
  have hge : hs.blockSize ≤ hs.chunkSize rem := Nat.le_of_dvd (Nat.pos_of_ne_zero hne) hdvd
  refine ⟨Nat.dvd_sub hb hdvd, ?_⟩
  have h1 : (rem - hs.chunkSize rem + hs.blockSize) / hs.blockSize ≤ rem / hs.blockSize :=
    Nat.div_le_div_right (by omega)
  rw [Nat.add_div_right _ hpos] at h1
  omega

/-- What `ioLoop` has to do to repeat an outcome. -/
def Repeats (dev : Device) (hs : HandleState) (dma : NvmDma) (opcode : BitVec 8)
    (size fuel bytesDone lba page t : Nat) (qp : Qp) (ds : List Post) : Option Int → Prop
  | none => ioLoop dev hs dma opcode size fuel bytesDone lba page t qp = none
  | some ret => ∃ t' q ds',
      ioLoop dev hs dma opcode size fuel bytesDone lba page t qp = some (ret, t', q) ∧
      q.posted = qp.posted ++ ds' ∧
      List.Forall₂ (fun d d' => ∃ r ∈ ioReqs hs size fuel bytesDone lba page, SameTurn hs r d d')
        ds ds'

/-- As long as bytes are left, there is a turn left. -/
theorem exists_fuel {rem fuel : Nat} (hrem : 0 < rem) (hdvd : hs.blockSize ∣ rem)
    (hpos : 0 < hs.blockSize) (hf : rem / hs.blockSize ≤ fuel) : ∃ fuel', fuel = fuel' + 1 := by
  have := Nat.div_pos (Nat.le_of_dvd hrem hdvd) hpos
  exact ⟨fuel - 1, by omega⟩

/-- A turn that was made among others is made in the same way on an idle pair. -/
theorem Made.repeated {qp : Qp} {chunk lba page : Nat} {d : Post}
    (hm : Made hs dma opcode qp.prpAddr ⟨chunk, lba, page⟩ (d.cmd, d.prp))
    (hdev : dev.Answers hs.spins st) (hq : qp.Idle) (ha : qp.Answered st)
    (hst : d.cpl.status = st qp.cmds.length) (t : Nat) :
    ∃ t' q d', ioChunk dev hs dma opcode chunk lba page t qp =
        some (decide (d.cpl.status = 0), t', q) ∧ q.Idle ∧ q.Answered st ∧
      q.prpAddr = qp.prpAddr ∧ q.cmds.length = qp.cmds.length + 1 ∧
      q.posted = qp.posted ++ [d'] ∧ SameTurn hs ⟨chunk, lba, page⟩ d d' := by
  obtain ⟨x, hx⟩ : ∃ x, dataPtrs dma.ioaddrs page (hs.chunkPages chunk) qp.prpAddr qp.prp =
      some x := by
    obtain ⟨_, _, _, _, -, hd⟩ := hm
    exact dataPtrs_defined hd _
  obtain ⟨t', q, d', he, hqi, hqa, hqd, hqc, hpo, hst', hm'⟩ :=
    ioChunk_answers hdev hq ha hx lba t
  rw [hst', ← hst] at he
  exact ⟨t', q, d', he, hqi, hqa, hqd, hqc, hpo, hm.same hm'⟩

theorem LoopOutcome.alone {bytesDone lba page : Nat} {ds : List Post} {o : Option Int}
    (h : LoopOutcome hs dma opcode size prpAddr bytesDone lba page ds o)
    (hdev : dev.Answers hs.spins st) :
    ∀ (fuel t : Nat) (qp : Qp), qp.Idle → qp.Answered st → qp.prpAddr = prpAddr →
      (∀ k d, ds[k]? = some d → d.cpl.status = st (qp.cmds.length + k)) →
      hs.blockSize ∣ size - bytesDone → 0 < hs.blockSize →
      (size - bytesDone) / hs.blockSize ≤ fuel →
      Repeats dev hs dma opcode size fuel bytesDone lba page t qp ds o := by
  induction h with
  | done hle =>
    intro fuel t qp _ _ _ _ _ _ _
    rw [Repeats, ioLoop.eq_def, if_pos hle]
    exact ⟨t, qp, [], rfl, by simp, .nil⟩
  | small hlt hc =>
    intro fuel t qp _ _ _ _ hdvd hpos hf
    obtain ⟨fuel, rfl⟩ := exists_fuel (by omega) hdvd hpos hf
    rw [Repeats, ioLoop.eq_def, if_neg (by omega)]
    exact ⟨t, qp, [], by simp only [hc, if_true], by simp, .nil⟩
  | undef hlt hc hne hd =>
    intro fuel t qp hq _ haddr _ hdvd hpos hf
    obtain ⟨fuel, rfl⟩ := exists_fuel (by omega) hdvd hpos hf
    subst hc
    rw [Repeats, ioLoop.eq_def, if_neg (by omega)]
    simp only [if_neg hne]
    rw [ioChunk_undef hq (by rw [haddr]; exact hd _)]
  | @failed b lba page chunk d hlt hc hne hm hst =>
    intro fuel t qp hq ha haddr hans hdvd hpos hf
    obtain ⟨fuel, rfl⟩ := exists_fuel (by omega) hdvd hpos hf
    subst haddr hc
    obtain ⟨t', q, d', he, -, -, -, -, hpo, hsame⟩ := hm.repeated hdev hq ha (hans 0 d rfl) t
    have hreq : (⟨hs.chunkSize (size - b), lba, page⟩ : Req) ∈
        ioReqs hs size (fuel + 1) b lba page := by
      rw [ioReqs_cons hlt hne]
      exact List.mem_cons_self
    refine ⟨t', q, [d'], ?_, hpo, .cons ⟨_, hreq, hsame⟩ .nil⟩
    rw [ioLoop.eq_def, if_neg (by omega)]
    simp only [if_neg hne, he, decide_eq_false hst]
  | @turn b lba page chunk d ds o hlt hc hne hm hst hrest ih =>
    intro fuel t qp hq ha haddr hans hdvd hpos hf
    obtain ⟨fuel, rfl⟩ := exists_fuel (by omega) hdvd hpos hf
    subst haddr hc
    obtain ⟨t', q, d', he, hqi, hqa, hqd, hqc, hpo, hsame⟩ :=
      hm.repeated hdev hq ha (hans 0 d rfl) t
    obtain ⟨hdvd', hf'⟩ := chunkSize_fuel hne hdvd hf
    rw [← Nat.sub_add_eq] at hdvd' hf'
    have hrep := ih fuel t' q hqi hqa hqd
      (fun k e hk => by
        rw [hqc, Nat.add_assoc, Nat.add_comm 1 k]
        exact hans (k + 1) e hk) hdvd' hpos hf'
    have hloop : ioLoop dev hs dma opcode size (fuel + 1) b lba page t qp =
        ioLoop dev hs dma opcode size fuel (b + hs.chunkSize (size - b))
          (lba + hs.chunkSize (size - b) / hs.blockSize)
          (page + hs.chunkPages (hs.chunkSize (size - b))) t' q := by
      rw [ioLoop.eq_def, if_neg (by omega)]
      simp only [if_neg hne, he, hst, decide_true]
    cases o with
    | none =>
      rw [Repeats, hloop]
      exact hrep
    | some ret =>
      obtain ⟨t'', q'', ds', hl, hpo', hall⟩ := hrep
      rw [Repeats, hloop, ioReqs_cons hlt hne]
      refine ⟨t'', q'', d' :: ds', hl, by rw [hpo', hpo]; simp, ?_⟩
      refine .cons ⟨_, List.mem_cons_self, hsame⟩ (hall.imp ?_)
      rintro e e' ⟨r, hr, hturn⟩
      exact ⟨r, List.mem_cons_of_mem _ hr, hturn⟩

end Alone

end UGDS
