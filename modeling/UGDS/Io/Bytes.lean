import UGDS.Io.Data

/-!
# UGDS.Io.Bytes

What a call of `do_io` has done to the bytes when it returns, in every interleaving with other
calls, the controller and whoever else changes bytes.

* `Data.Tracked`: a call's sources are as they were before it started, and what the loop has counted
  has arrived; of the chunk in flight, what the controller has moved. A step that spares the call's
  bytes keeps it (`step_tracked`).
* `io_call_moves_its_bytes`: a call that returns its size, undisturbed, has moved every byte.
* `io_frame`: bytes that no call is to write stay as they are, also when calls fail.
* `io_read_after_write`: what was written is read back.
-/

namespace UGDS

open Nvm Lib

/-- The places that a call reads or writes. -/
def IoCall.Touches (hs : HandleState) (c : IoCall) (x : Loc) : Prop :=
  ∃ b src dst, c.ends hs b = some (src, dst) ∧ (x = src ∨ x = dst)

namespace Data

/-- Byte `b` of a call has, in `m`, at its destination the value that its source has in `m₁`. -/
def Arrived (hs₀ : HandleState) (io : IoCall) (m₁ m : Loc → BitVec 8) (b : Nat) : Prop :=
  ∃ src dst, io.ends hs₀ b = some (src, dst) ∧ m dst = m₁ src

/-- How far a call has come. -/
def Progress (hs₀ : HandleState) (m₁ : Loc → BitVec 8) (s : Data) (c : IoThread) : Prop :=
  match c.stage with
  | .waiting _ _ => True
  | .inside _ l =>
    (∀ b, b < l.bytesDone → Arrived hs₀ c.io m₁ s.media b) ∧
      ∀ chunk left q, l.phase = .sent chunk left → s.host.hs.qps[c.qp]? = some q →
        ∀ o ∈ s.moved c.qp (q.pair.cmds.length - 1),
          Arrived hs₀ c.io m₁ s.media (l.bytesDone + o)
  | .returned ret =>
    ret = c.io.args.size → ∀ b, b < c.io.args.size → Arrived hs₀ c.io m₁ s.media b

/-- Call number `j` is `io`, its sources are as in `m₁`, and it makes progress. -/
structure Tracked (hs₀ : HandleState) (m₁ : Loc → BitVec 8) (j : Nat) (io : IoCall) (s : Data) :
    Prop where
  src : ∀ b src dst, io.ends hs₀ b = some (src, dst) → s.media src = m₁ src
  call : ∀ c, s.host.calls[j]? = some c → c.io = io ∧ Progress hs₀ m₁ s c

/-- A step that changes no place of call `j`, unless it is one of that call's commands. -/
def Spares (hs₀ : HandleState) (j : Nat) (io : IoCall) (s : Data) : Move → Prop
  | .host (.enter io') => s.host.calls.length = j → io' = io
  | .host _ => True
  | .dma i k o _ => ∀ seq src dst, s.target i k o = some (seq, src, dst) →
      s.host.owner i ≠ some j → ¬ io.Touches hs₀ dst
  | .other x _ => ¬ io.Touches hs₀ x

section Step

variable {hs₀ : HandleState} {m₁ : Loc → BitVec 8} {j : Nat} {io : IoCall} {s s' : Data}

theorem Arrived.keep {m m' : Loc → BitVec 8} {b : Nat} (h : Arrived hs₀ io m₁ m b)
    (hm : ∀ src dst, io.ends hs₀ b = some (src, dst) → m' dst = m dst) :
    Arrived hs₀ io m₁ m' b := by
  obtain ⟨src, dst, he, hv⟩ := h
  exact ⟨src, dst, he, (hm src dst he).trans hv⟩

/-- A step that leaves the call, its destinations and its pair's commands alone. -/
theorem Progress.keep {c : IoThread} (h : Progress hs₀ m₁ s c)
    (hm : ∀ b src dst, c.io.ends hs₀ b = some (src, dst) → s'.media dst = s.media dst)
    (hp : ∀ dma l q', c.stage = .inside dma l → s'.host.hs.qps[c.qp]? = some q' →
      ∃ q, s.host.hs.qps[c.qp]? = some q ∧ q'.pair.cmds = q.pair.cmds ∧
        ∀ n, s'.moved c.qp n = s.moved c.qp n) :
    Progress hs₀ m₁ s' c := by
  unfold Progress at h ⊢
  cases hst : c.stage with
  | waiting dma start => trivial
  | inside dma l =>
    simp only [hst] at h ⊢
    obtain ⟨hdone, hsent⟩ := h
    refine ⟨fun b hb => (hdone b hb).keep (hm b), ?_⟩
    intro chunk left q' hph hq' o ho
    obtain ⟨q, hq, hcmds, hmv⟩ := hp dma l q' hst hq'
    rw [hcmds, hmv] at ho
    exact (hsent chunk left q hph hq o ho).keep (hm _)
  | returned ret =>
    simp only [hst] at h ⊢
    exact fun hret b hb => (h hret b hb).keep (hm b)

theorem neg_code_ne (e : Errno) (n : Nat) : -e.code ≠ n := by
  have := e.code_pos
  omega

/-- A step of the call itself. -/
theorem Progress.advance (g : Geometry hs₀) (hb : 2 ≤ hs₀.blockSize) (h : Sound hs₀ s)
    {c : IoThread} {dma : NvmDma} {l : IoLocals} {q : IOQueuePair} {t : Turn}
    (hpr : Progress hs₀ m₁ s c) (hc : s.host.calls[j]? = some c) (hst : c.stage = .inside dma l)
    (hq : s.host.hs.qps[c.qp]? = some q)
    (he : l.advance s.host.hs dma c.io.args.opcode c.io.args.size q.pair = some t)
    (hmedia : s'.media = s.media) (hmv : s'.moved = s.moved)
    (hq' : ∀ q', s'.host.hs.qps[c.qp]? = some q' → q'.pair = t.qp) :
    Progress hs₀ m₁ s' (Threads.advanced c dma t) := by
  obtain ⟨hmine, ds, n, hin⟩ := h.host.inside hc hst hq
  obtain ⟨fly, start, hadm, hcur⟩ := h.cursors.cursor j c dma l hc hst
  have hsz : hs₀.blockSize ∣ c.io.args.size :=
    Nat.dvd_of_mod_eq_zero (ioAdmit_ok hadm).1.size_block
  simp only [Progress, hst] at hpr
  obtain ⟨hdone, hsent⟩ := hpr
  rw [← hmedia] at hdone hsent
  rw [h.host.advance_eq (i := c.qp)] at he
  have hph := hin.phase
  cases hphase : l.phase with
  | top =>
    simp only [Threads.AtPhase, hphase] at hph
    simp only [IoLocals.advance, hphase] at he
    split at he
    · rename_i hle
      cases he
      simp only [Progress, Threads.advanced]
      exact fun _ b hb' => hdone b (by omega)
    · split at he
      · cases he
        simp only [Progress, Threads.advanced]
        exact fun hret => absurd hret (neg_code_ne _ _)
      · split at he
        · cases he
          simp only [Progress, Threads.advanced]
          exact ⟨hdone, fun _ _ _ hph => by cases hph⟩
        · rename_i slot qp₁ henq
          split at he
          · cases he
          · rename_i qp₂ hiss
            cases he
            simp only [Progress, Threads.advanced]
            refine ⟨hdone, fun _ _ q' _ hq'' o ho => ?_⟩
            -- the new command has not been fetched, so nothing of it has been moved
            obtain ⟨x, -, hx⟩ := Option.map_eq_some_iff.mp henq
            cases hx
            obtain ⟨cid, prp1, prp2, prp, -, rfl⟩ := ioIssue_put hiss
            have hlen : q'.pair.cmds.length - 1 = q.pair.cmds.length := by
              rw [hq' q' hq'']
              simp [Qp.submit, Qp.put]
            have hnew : s.moved c.qp q.pair.cmds.length = [] :=
              h.fresh c.qp q _ hq hin.serial.inv.counts.2.2
            rw [hmv, hlen, hnew] at ho
            cases ho
  | full left => simp only [Threads.AtPhase, hphase] at hph
  | sent chunk left =>
    simp only [Threads.AtPhase, hphase] at hph
    obtain ⟨hlen, -, hlt, hc', -, cmd, hcmd, hmade⟩ := hph
    have hc' : chunk = hs₀.chunkSize (c.io.args.size - l.bytesDone) := hc'
    have hmade : Made hs₀ dma c.io.args.opcode q.pair.prpAddr ⟨chunk, l.lba, l.page⟩
        (cmd, q.pair.prp) := hmade
    obtain ⟨hc0, -, hcmax, hcb, hlba⟩ := hcur.chunk g hb hlt hsz hc'
    obtain ⟨-, hbytes⟩ := hmade.bytes g hc0 hcmax hcb hlba
    simp only [IoLocals.advance, hphase, Option.some.injEq] at he
    by_cases hpo : n < q.pair.posted.length
    · obtain ⟨p, r, hd, hget, hseq, hpc, -, -, -⟩ := hin.serial.consume hpo
      rw [hcmd] at hpc
      simp only [IoLocals.poll, hd] at he
      subst he
      by_cases hz : p.cpl.status = 0
      · -- success was reported, so every byte of the chunk has been moved
        simp only [Progress, Threads.advanced, ne_eq, hz, not_true_eq_false, if_false]
        refine ⟨fun b hb' => ?_, fun _ _ _ hph => by cases hph⟩
        by_cases hold : b < l.bytesDone
        · exact hdone b hold
        · have hm := h.posted c.qp q p hq (List.mem_of_getElem? hget) hz (b - l.bytesDone) (by
            rw [← Option.some.inj hpc, hbytes]
            omega)
          have := hsent chunk left q hphase hq (b - l.bytesDone) (by
            rw [hlen, Nat.add_sub_cancel, ← hseq]
            exact hm)
          rwa [Nat.add_sub_cancel' (Nat.le_of_not_lt hold)] at this
      · simp only [Progress, Threads.advanced, ne_eq, hz, not_false_eq_true, if_true]
        exact fun hret => absurd hret (neg_code_ne _ _)
    · have hmiss := hin.serial.miss (by have := hin.serial.inv.counts; omega)
      simp only [IoLocals.poll, hmiss] at he
      cases left with
      | zero =>
        subst he
        simp only [Progress, Threads.advanced]
        exact fun hret => absurd hret (neg_code_ne _ _)
      | succ left =>
        subst he
        simp only [Progress, Threads.advanced]
        refine ⟨hdone, fun _ _ q' _ hq'' o ho => ?_⟩
        rw [hq' q' hq'', hmv] at ho
        exact hsent chunk (left + 1) q hphase hq o ho

theorem step_tracked_host (g : Geometry hs₀) (hb : 2 ≤ hs₀.blockSize) (hS : Sound hs₀ s)
    (h : Tracked hs₀ m₁ j io s) {m : Threads.Move} (hsp : Spares hs₀ j io s (.host m))
    (hs : s.step (.host m) = some s') : Tracked hs₀ m₁ j io s' := by
  obtain ⟨-, hst, hmedia, hmv⟩ := step_host hs
  refine ⟨fun b src dst he => by rw [hmedia]; exact h.src b src dst he, ?_⟩
  -- a call that stays as it is, on a pair whose commands stay as they are
  have hkeep {c : IoThread} (hc : s.host.calls[j]? = some c)
      (hp : ∀ dma l q', c.stage = .inside dma l → s'.host.hs.qps[c.qp]? = some q' →
        ∃ q, s.host.hs.qps[c.qp]? = some q ∧ q'.pair.cmds = q.pair.cmds) :
      c.io = io ∧ Progress hs₀ m₁ s' c := by
    obtain ⟨hio, hpr⟩ := h.call c hc
    refine ⟨hio, hpr.keep (fun _ _ _ _ => by rw [hmedia]) fun dma l q' hst' hq' => ?_⟩
    obtain ⟨q, hq, hcm⟩ := hp dma l q' hst' hq'
    exact ⟨q, hq, hcm, fun n => by rw [hmv]⟩
  cases m with
  | enter io' =>
    obtain ⟨stage, rr, heq, hcase⟩ := Threads.step_enter hst
    rw [heq]
    intro c' hc'
    refine forall_snoc (P := fun k c => k = j → c.io = io ∧ Progress hs₀ m₁ s' c) ?_ ?_ j c' hc' rfl
    · rintro k c hc rfl
      exact hkeep hc fun dma l q' _ hq' => ⟨q', by rw [heq] at hq'; exact hq', rfl⟩
    · intro hj
      refine ⟨hsp hj, ?_⟩
      rcases hcase with ⟨e, -, rfl⟩ | ⟨dma, fly, start, -, rfl⟩
      · exact fun hret => absurd hret (neg_code_ne _ _)
      · trivial
  | lock j' =>
    obtain ⟨c, dma, start, hc, hstage, -, heq⟩ := Threads.step_lock hst
    rw [heq]
    intro c' hc'
    rcases getElem?_set_cases hc' with ⟨rfl, rfl⟩ | ⟨-, hc'⟩
    · exact ⟨(h.call c hc).1, fun b hb => absurd hb (Nat.not_lt_zero b),
        fun _ _ _ hph => by cases hph⟩
    · exact hkeep hc' fun dma l q' _ hq' => ⟨q', by rw [heq] at hq'; exact hq', rfl⟩
  | advance j' =>
    obtain ⟨c, dma, l, q, t, hc, hstage, hq, he, heq⟩ := Threads.step_advance hst
    have hqps : s'.host.hs.qps = (Threads.setPair s.host.hs c.qp q t.qp).qps := by rw [heq]
    rw [heq]
    intro c' hc'
    rcases getElem?_set_cases hc' with ⟨rfl, rfl⟩ | ⟨hne, hc'⟩
    · obtain ⟨hio, hpr⟩ := h.call c hc
      refine ⟨hio, hpr.advance g hb hS hc hstage hq he hmedia hmv fun q' hq' => ?_⟩
      rw [hqps] at hq'
      rcases setPair_get hq' with ⟨-, rfl⟩ | ⟨hk, -⟩
      · rfl
      · exact absurd rfl hk
    · refine hkeep hc' fun dma' l' q' hst' hq' => ?_
      rw [hqps] at hq'
      rcases setPair_get hq' with ⟨hk, -⟩ | ⟨-, hk⟩
      · -- two calls in the critical section of one pair
        rw [hk] at hq'
        obtain ⟨q₁, hq₁, hok⟩ := hS.host.call j c' hc'
        obtain ⟨hmine, -⟩ := hS.host.inside hc' hst' hq₁
        obtain ⟨hmine', -⟩ := hS.host.inside hc hstage hq
        rw [hk, hmine'] at hmine
        exact absurd (Option.some.inj hmine).symm hne
      · exact ⟨q', hk, rfl⟩
  | device i a =>
    obtain ⟨q, hq, heq⟩ := Threads.step_device hst
    have hqps : s'.host.hs.qps = (Threads.setPair s.host.hs i q (q.pair.devStep a)).qps := by
      rw [heq]
    rw [heq]
    intro c' hc'
    refine hkeep hc' fun dma l q' _ hq' => ?_
    rw [hqps] at hq'
    rcases setPair_get hq' with ⟨rfl, rfl⟩ | ⟨-, hk⟩
    · have hm : Qp.Moved (fun _ _ => [a]) q.pair (q.pair.devStep a) :=
        @Qp.moved_devStep (fun _ _ => [a]) 0 q.pair a (List.mem_singleton_self a) q.pair
      exact ⟨q, hq, hm.cmds⟩
    · exact ⟨q', hk, rfl⟩

/-- Changing a place that the call does not touch. -/
theorem Tracked.update (h : Tracked hs₀ m₁ j io s) {x : Loc} (v : BitVec 8)
    (hx : ¬ io.Touches hs₀ x) {moved : Nat → Nat → List Nat}
    (hmv : ∀ c dma l, s.host.calls[j]? = some c → c.stage = .inside dma l →
      ∀ n, moved c.qp n = s.moved c.qp n) :
    Tracked hs₀ m₁ j io ⟨s.host, Function.update s.media x v, moved⟩ := by
  refine ⟨fun b src dst he => ?_, fun c hc => ?_⟩
  · have hne : src ≠ x := fun heq => hx ⟨b, src, dst, he, .inl heq.symm⟩
    exact (Function.update_of_ne hne _ _).trans (h.src b src dst he)
  · obtain ⟨hio, hpr⟩ := h.call c hc
    refine ⟨hio, hpr.keep (fun b src dst he => ?_) fun dma l q hst hq => ?_⟩
    · rw [hio] at he
      exact Function.update_of_ne (fun heq => hx ⟨b, src, dst, he, .inr heq.symm⟩) _ _
    · exact ⟨q, hq, rfl, hmv c dma l hc hst⟩

theorem step_tracked_dma (g : Geometry hs₀) (hb : 2 ≤ hs₀.blockSize)
    (hp : hs₀.ctrl.pageSize ∣ 2 ^ 64) (hd : io.distinct hs₀ = true) (hS : Sound hs₀ s)
    (h : Tracked hs₀ m₁ j io s) {i k o : Nat} {junk : Option (BitVec 8)}
    (hsp : Spares hs₀ j io s (.dma i k o junk)) (hs : s.step (.dma i k o junk) = some s') :
    Tracked hs₀ m₁ j io s' := by
  obtain ⟨seq, src, dst, v, os, ht, rfl, hos⟩ := step_dma hs
  obtain ⟨q, cmd, hq, hf, hends⟩ := target_cases ht
  obtain ⟨j', c, dma, l, chunk, left, hown, hc, rfl, hst, hph, hseq, hE⟩ :=
    Threads.fetched_ends g hb hS.host hS.cursors hq hf
  by_cases hj : j' = j
  · -- one of the call's own bytes
    subst hj
    obtain ⟨hio, hpr⟩ := h.call c hc
    have hal := hS.aligned j' c hc
    rw [hS.ends_eq, hE hal] at hends
    split at hends
    · rename_i ho
      rw [hio] at hends hal
      have hsrc : ∀ b src' dst', io.ends hs₀ b = some (src', dst') →
          Function.update s.media dst v src' = m₁ src' := by
        intro b src' dst' he
        rw [Function.update_of_ne (IoCall.src_ne_dst he hends)]
        exact h.src b src' dst' he
      have hkeep {b : Nat} (hne : b ≠ l.bytesDone + o) (ha : Arrived hs₀ c.io m₁ s.media b) :
          Arrived hs₀ c.io m₁ (Function.update s.media dst v) b := by
        refine ha.keep fun src' dst' he => ?_
        rw [hio] at he
        refine Function.update_of_ne ?_ _ _
        rintro rfl
        exact hne (IoCall.dst_inj hp hal hd he hends)
      refine ⟨hsrc, fun c' hc' => ?_⟩
      have hc' : s.host.calls[j']? = some c' := hc'
      rw [hc] at hc'
      cases hc'
      refine ⟨hio, ?_⟩
      simp only [Progress, hst] at hpr ⊢
      refine ⟨fun b hb' => hkeep (by omega) (hpr.1 b hb'), fun chunk' left' q' hph' hq' o' ho' => ?_⟩
      rw [hq] at hq'
      cases hq'
      have hn : q.pair.cmds.length - 1 = seq := by omega
      rw [hn, mark_self] at ho'
      rcases hos o' ho' with ⟨hold, hne⟩ | ⟨rfl, rfl⟩
      · exact hkeep (by omega) (hpr.2 chunk' left' q hph' hq o' (by rw [hn]; exact hold))
      · rw [← hio] at hends
        refine ⟨src, dst, hends, ?_⟩
        rw [Function.update_self]
        rw [hio] at hends
        exact h.src _ src dst hends
    · cases hends
  · have hother : s.host.owner c.qp ≠ some j := by
      rw [hown]
      exact fun he => hj (Option.some.inj he)
    refine h.update v (hsp seq src dst ht hother) fun c' dma' l' hc' hst' n => ?_
    -- the call holds the lock of another pair
    obtain ⟨q', hq', -⟩ := hS.host.call j c' hc'
    obtain ⟨hmine, -⟩ := hS.host.inside hc' hst' hq'
    refine mark_of_ne os (.inl fun heq => hother ?_)
    rw [← heq]
    exact hmine

theorem step_tracked (g : Geometry hs₀) (hb : 2 ≤ hs₀.blockSize)
    (hp : hs₀.ctrl.pageSize ∣ 2 ^ 64) (hd : io.distinct hs₀ = true) (hS : Sound hs₀ s)
    (h : Tracked hs₀ m₁ j io s) {m : Move} (hsp : Spares hs₀ j io s m)
    (hs : s.step m = some s') : Tracked hs₀ m₁ j io s' := by
  cases m with
  | host m => exact step_tracked_host g hb hS h hsp hs
  | dma i k o junk => exact step_tracked_dma g hb hp hd hS h hsp hs
  | other x v =>
    cases hs
    exact h.update v hsp fun _ _ _ _ _ _ => rfl

end Step

/-! ## Runs -/

/-- The call has returned. -/
def HasReturned (s : Data) (j : Nat) : Prop :=
  ∃ c ret, s.host.calls[j]? = some c ∧ c.stage = .returned ret

/-- The call has not taken the lock of its queue pair, and may not even have been made. -/
def NotStarted (s : Data) (j : Nat) : Prop :=
  ∀ c, s.host.calls[j]? = some c → ∃ dma start, c.stage = .waiting dma start

section Run

variable {hs₀ : HandleState} {s s₁ s₂ : Data} {tr : List (Data × Move)}

theorem run_calls {j : Nat} {c : IoThread} (hr : Run step s₁ tr s₂)
    (hc : s₁.host.calls[j]? = some c) :
    ∃ c', s₂.host.calls[j]? = some c' ∧ c'.io = c.io ∧ ∀ ret, c.stage = .returned ret → c' = c := by
  refine Run.inv_all (fun s => ∃ c', s.host.calls[j]? = some c' ∧ c'.io = c.io ∧
    ∀ ret, c.stage = .returned ret → c' = c) ?_ hr ⟨c, hc, rfl, fun _ _ => rfl⟩
  rintro s m s' ⟨c', hc', hio, hret⟩ hs
  cases m with
  | host m =>
    obtain ⟨-, hst, -, -⟩ := step_host hs
    obtain ⟨c'', hc'', hio', hret'⟩ := step_calls hst hc'
    refine ⟨c'', hc'', hio'.trans hio, fun ret hst' => ?_⟩
    have hsame := hret ret hst'
    exact (hret' ret (by rw [hsame]; exact hst')).trans hsame
  | dma i k o junk =>
    obtain ⟨seq, src, dst, v, os, -, rfl, -⟩ := step_dma hs
    exact ⟨c', hc', hio, hret⟩
  | other x v =>
    cases hs
    exact ⟨c', hc', hio, hret⟩

/-- What a step of the controller writes belongs to a call that has not returned at the start of the
run. -/
theorem run_writer (g : Geometry hs₀) (hb : 2 ≤ hs₀.blockSize) (hr : Run step s₁ tr s₂)
    (hS : ∀ x ∈ tr, Sound hs₀ x.1) {i k o : Nat} {junk : Option (BitVec 8)}
    (hx : (s, .dma i k o junk) ∈ tr) {seq : Nat} {src dst : Loc}
    (ht : s.target i k o = some (seq, src, dst)) :
    ∃ j c, s.host.owner i = some j ∧ s₂.host.calls[j]? = some c ∧ ¬ s₁.HasReturned j ∧
      c.io.Writes hs₀ dst := by
  have hs := hS _ hx
  obtain ⟨q, cmd, hq, hf, hends⟩ := target_cases ht
  obtain ⟨j, c, dma, l, chunk, left, hown, hc, rfl, hst, -, -, hE⟩ :=
    Threads.fetched_ends g hb hs.host hs.cursors hq hf
  rw [hs.ends_eq, hE (hs.aligned j c hc)] at hends
  obtain ⟨tr₂, hr₂⟩ := hr.onward hx
  obtain ⟨c₂, hc₂, hio, -⟩ := run_calls hr₂ hc
  refine ⟨j, c₂, hown, hc₂, ?_, ?_⟩
  · rintro ⟨c₁, ret, hc₁, hret⟩
    obtain ⟨tr₁, tr₃, -, hr₁⟩ := hr.upto hx
    obtain ⟨c', hc', -, hsame⟩ := run_calls hr₁ hc₁
    rw [hc] at hc'
    cases hc'
    rw [← hsame ret hret, hst] at hret
    cases hret
  · split at hends
    · exact ⟨_, src, by rw [hio]; exact hends⟩
    · cases hends

end Run

/-- Nobody else changes the bytes of call `j` while it runs: not the calls that are made or under way
between `s₁` and `s₂`, and not the others. -/
structure Undisturbed (hs₀ : HandleState) (s₁ : Data) (tr : List (Data × Move)) (s₂ : Data) (j : Nat)
    (io : IoCall) : Prop where
  calls : ∀ (j' : Nat) (c : IoThread), j' ≠ j → s₂.host.calls[j']? = some c →
    ¬ s₁.HasReturned j' → ∀ x, c.io.Writes hs₀ x → ¬ io.Touches hs₀ x
  others : ∀ s x v, (s, .other x v) ∈ tr → ¬ io.Touches hs₀ x

theorem Undisturbed.spares {hs₀ : HandleState} {s₁ s₂ : Data} {tr : List (Data × Move)} {j : Nat}
    {c : IoThread} (h : Undisturbed hs₀ s₁ tr s₂ j c.io) (g : Geometry hs₀)
    (hb : 2 ≤ hs₀.blockSize) (hr : Run step s₁ tr s₂) (hS : ∀ x ∈ tr, Sound hs₀ x.1)
    (hc : s₂.host.calls[j]? = some c) : ∀ x ∈ tr, Spares hs₀ j c.io x.1 x.2 := by
  rintro ⟨s, m⟩ hx
  cases m with
  | host m =>
    cases m with
    | enter io' =>
      intro hlen
      obtain ⟨tr₂, hr₂⟩ := hr.onward hx
      cases hr₂ with
      | cons hs hr₂ =>
        obtain ⟨-, hst, -, -⟩ := step_host hs
        obtain ⟨stage, rr, heq, -⟩ := Threads.step_enter hst
        have hnew := congrArg (fun s : Threads => s.calls[j]?) heq
        simp only [← hlen, List.getElem?_concat_length] at hnew
        rw [hlen] at hnew
        obtain ⟨c', hc', hio, -⟩ := run_calls hr₂ hnew
        rw [hc] at hc'
        cases hc'
        exact hio.symm
    | lock j' => trivial
    | advance j' => trivial
    | device i a => trivial
  | dma i k o junk =>
    intro seq src dst ht hne
    obtain ⟨j', c', hown, hc', hnot, hw⟩ := run_writer g hb hr hS hx ht
    refine h.calls j' c' ?_ hc' hnot dst hw
    rintro rfl
    exact hne hown
  | other x v => exact h.others s x v hx

end Data

/-- A call that has not started yet is tracked from now on. -/
theorem Data.run_tracked {hs₀ : HandleState} {s₁ s₂ : Data} {tr : List (Data × Data.Move)} {j : Nat}
    {c : IoThread} (h₀ : hs₀.Fresh) (g : Geometry hs₀) (hb : 2 ≤ hs₀.blockSize)
    (hp : hs₀.ctrl.pageSize ∣ 2 ^ 64) (hS : Data.Sound hs₀ s₁) (hr : Run Data.step s₁ tr s₂)
    (hproper : ∀ x ∈ tr, x.1.proper x.2 = true) (hc : s₂.host.calls[j]? = some c)
    (hd : c.io.distinct hs₀ = true) (hnew : s₁.NotStarted j)
    (hfree : Data.Undisturbed hs₀ s₁ tr s₂ j c.io) :
    Data.Tracked hs₀ s₁.media j c.io s₂ := by
  obtain ⟨-, hS₂⟩ := Data.run_sound h₀ g hr hS hproper
  have hspares := hfree.spares g hb hr hS₂ hc
  have hstart : Data.Tracked hs₀ s₁.media j c.io s₁ := by
    refine ⟨fun _ _ _ _ => rfl, fun c₁ hc₁ => ?_⟩
    obtain ⟨c', hc', hio, -⟩ := Data.run_calls hr hc₁
    rw [hc] at hc'
    cases hc'
    obtain ⟨dma, start, hst⟩ := hnew c₁ hc₁
    refine ⟨hio.symm, ?_⟩
    simp only [Data.Progress, hst]
  exact (Run.inv (fun s => Data.Sound hs₀ s ∧ Data.Tracked hs₀ s₁.media j c.io s)
    (fun s m => s.proper m = true ∧ Data.Spares hs₀ j c.io s m)
    (fun s m s' hi hg hs => ⟨Data.step_sound h₀ g hi.1 hg.1 hs,
      Data.step_tracked g hb hp hd hi.1 hi.2 hg.2 hs⟩)
    hr ⟨hS, hstart⟩ (fun x hx => ⟨hproper x hx, hspares x hx⟩)).1.2

theorem Data.Tracked.bytes {hs₀ : HandleState} {m₁ : Loc → BitVec 8} {s : Data} {j : Nat}
    {c : IoThread} (h : Data.Tracked hs₀ m₁ j c.io s) (hc : s.host.calls[j]? = some c)
    (hret : c.stage = .returned c.io.args.size) {b : Nat} (hlt : b < c.io.args.size) :
    ∃ src dst, c.io.ends hs₀ b = some (src, dst) ∧ s.media dst = m₁ src ∧ s.media src = m₁ src := by
  obtain ⟨-, hpr⟩ := h.call c hc
  simp only [Data.Progress, hret] at hpr
  obtain ⟨src, dst, he, hv⟩ := hpr trivial b hlt
  exact ⟨src, dst, he, hv, h.src b src dst he⟩

/-! ## A run -/

/-- The handle with two queue pairs, for a namespace with blocks of two bytes. -/
def tinyBlocks : HandleState := { twoPairs with blockSize := 2 }

theorem tinyBlocks_fresh : tinyBlocks.Fresh :=
  ⟨twoPairs_fresh.num_eq, twoPairs_fresh.num_pos, twoPairs_fresh.num_le, twoPairs_fresh.pairs⟩

theorem tinyBlocks_geometry : Geometry tinyBlocks := by
  refine ⟨⟨?_, ?_, ?_, ?_, ?_, ?_, ?_⟩, ?_⟩ <;> decide

/-- A transfer of the third block, from or to the page at `a`. -/
def tinyCall (op : BitVec 8) (a : BitVec 64) : IoCall where
  reg := some ⟨0, true, true, 4096, [a], 0⟩
  mapDevice := fun _ _ => .error .ENOMEM
  args := ⟨0x200000, 2, 4, 0, op, sampleBase_lt, by decide, by decide, zeroOffset_lt⟩

/-- A call `j` on pair `i` from beginning to end. The controller first puts something else into the
place of the second byte. -/
def tinyMoves (io : IoCall) (j i : Nat) : List Data.Move :=
  [.host (.enter io), .host (.lock j), .host (.advance j), .host (.device i .fetch),
    .dma i 0 1 (some 0xff#8), .dma i 0 0 none, .dma i 0 1 none,
    .host (.device i (.complete 0 .zero)), .host (.advance j), .host (.advance j)]

/-- Two bytes in memory. -/
def twoBytes : Loc → BitVec 8
  | .mem a => if a = 0x100000#64 then 0xaa#8 else if a = 0x100001#64 then 0xbb#8 else 0#8
  | .disk _ => 0#8

def writeBlock : IoCall := tinyCall NVM_IO_WRITE 0x100000#64

def readBlock : IoCall := tinyCall NVM_IO_READ 0x200000#64

/-- What is observed of a call: its result, its arguments, and the ends of its two bytes. -/
structure CallView where
  result : Option Int
  size : Nat
  opcode : BitVec 8
  fileOffset : Int
  first : Option (Loc × Loc)
  second : Option (Loc × Loc)
  distinct : Bool
  deriving DecidableEq

def IoThread.view (c : IoThread) : CallView :=
  ⟨c.result, c.io.args.size, c.io.args.opcode, c.io.args.fileOffset, c.io.ends tinyBlocks 0,
    c.io.ends tinyBlocks 1, c.io.distinct tinyBlocks⟩

def writeView : CallView :=
  ⟨some 2, 2, NVM_IO_WRITE, 4, some (.mem 0x100000#64, .disk 4), some (.mem 0x100001#64, .disk 5),
    true⟩

def readView : CallView :=
  ⟨some 2, 2, NVM_IO_READ, 4, some (.disk 4, .mem 0x200000#64), some (.disk 5, .mem 0x200001#64),
    true⟩

/-- A write on the first pair, and then a read of the same block on the second one. -/
theorem write_then_read_run :
    ∃ tr₁ s₁ tr₂ s₂, Run Data.step (Data.init tinyBlocks twoBytes) tr₁ s₁ ∧
      Run Data.step s₁ tr₂ s₂ ∧ (∀ x ∈ tr₁ ++ tr₂, x.1.proper x.2 = true) ∧
      tr₁.map Prod.snd = tinyMoves writeBlock 0 0 ∧
      tr₂.map Prod.snd = tinyMoves readBlock 1 1 ∧
      s₁.host.calls.map IoThread.view = [writeView] ∧
      s₂.host.calls.map IoThread.view = [writeView, readView] := by
  obtain ⟨tr₁, s₁, hr₁, hl₁, hg₁, hobs⟩ := follow_trace Data.step (fun s m => s.proper m)
    (Data.init tinyBlocks twoBytes) (tinyMoves writeBlock 0 0)
    (fun s => decide (s.host.calls.map IoThread.view = [writeView]) &&
      (follow Data.step (fun s m => s.proper m) s (tinyMoves readBlock 1 1)).any
        fun s' : Data => decide (s'.host.calls.map IoThread.view = [writeView, readView]))
    (by decide +kernel)
  simp only [Bool.and_eq_true, decide_eq_true_eq] at hobs
  obtain ⟨hview₁, hrest⟩ := hobs
  obtain ⟨tr₂, s₂, hr₂, hl₂, hg₂, hview₂⟩ := follow_trace Data.step (fun s m => s.proper m) s₁
    (tinyMoves readBlock 1 1) _ hrest
  simp only [decide_eq_true_eq] at hview₂
  refine ⟨tr₁, s₁, tr₂, s₂, hr₁, hr₂, fun x hx => ?_, hl₁, hl₂, hview₁, hview₂⟩
  rcases List.mem_append.mp hx with hx | hx
  · exact hg₁ x hx
  · exact hg₂ x hx

section Views

variable {s : Data} {j : Nat} {c : IoThread}

theorem IoThread.of_result {ret : Int} (h : c.result = some ret) : c.stage = .returned ret := by
  unfold IoThread.result at h
  split at h
  · rename_i ret' hst
    rw [hst, Option.some.inj h]
  · cases h

theorem exists_call_of_views {vs : List CallView} {v : CallView}
    (h : s.host.calls.map IoThread.view = vs) (hj : vs[j]? = some v) :
    ∃ c, s.host.calls[j]? = some c ∧ c.view = v := by
  rw [← h, List.getElem?_map, Option.map_eq_some_iff] at hj
  exact hj

theorem returned_of_view {v : CallView} (h : c.view = v) (hv : v.result = some (v.size : Int)) :
    c.stage = .returned c.io.args.size := by
  subst h
  exact IoThread.of_result hv

theorem length_of_views {vs : List CallView} (h : s.host.calls.map IoThread.view = vs) :
    s.host.calls.length = vs.length := by
  rw [← h, List.length_map]

theorem notStarted_of_views {vs : List CallView} (h : s.host.calls.map IoThread.view = vs)
    (hj : vs.length ≤ j) : s.NotStarted j := by
  intro c hc
  have hlt := (List.getElem?_eq_some_iff.mp hc).1
  have := length_of_views h
  omega

theorem tinyMoves_others {tr : List (Data × Data.Move)} {io : IoCall} {i : Nat}
    (h : tr.map Prod.snd = tinyMoves io j i) : ∀ s x v, (s, .other x v) ∉ tr := by
  intro s x v hx
  have : Data.Move.other x v ∈ tinyMoves io j i := by
    rw [← h]
    exact List.mem_map_of_mem hx
  simp [tinyMoves] at this

/-- With only the call itself and calls that have returned before, nobody disturbs. -/
theorem undisturbed_of_views {s₁ s₂ : Data} {tr : List (Data × Data.Move)} {io io' : IoCall}
    {i : Nat} {vs₁ vs₂ : List CallView} (h₁ : s₁.host.calls.map IoThread.view = vs₁)
    (h₂ : s₂.host.calls.map IoThread.view = vs₂) (hl : tr.map Prod.snd = tinyMoves io j i)
    (hlen : vs₂.length ≤ vs₁.length + 1) (hj : j = vs₁.length)
    (hret : ∀ v ∈ vs₁, ∃ ret, v.result = some ret) :
    Data.Undisturbed tinyBlocks s₁ tr s₂ j io' := by
  refine ⟨fun j' c hne hc hnot => absurd ?_ hnot, fun s x v hx => absurd hx ?_⟩
  · have hlt := (List.getElem?_eq_some_iff.mp hc).1
    rw [length_of_views h₂] at hlt
    have hlt₁ : j' < vs₁.length := by omega
    obtain ⟨c₁, hc₁, hv⟩ := exists_call_of_views h₁ (List.getElem?_eq_getElem hlt₁)
    obtain ⟨ret, hret⟩ := hret _ (List.getElem_mem hlt₁)
    rw [← hv] at hret
    exact ⟨c₁, ret, hc₁, IoThread.of_result hret⟩
  · exact tinyMoves_others hl s x v

end Views

/-! ## The bytes of a run -/

/-- Calls on one handle, interleaved in any way with one another, with a controller that reports
success only for what it has moved, and with others; no wait runs out, and buffers are mapped in
whole pages. A call that had not started in `s₁`, has returned its size in `s₂`, uses no page twice
and was not disturbed in between has moved every byte: the destination holds what the source held in
`s₁`, and the source still does. -/
theorem io_call_moves_its_bytes (hs₀ : HandleState) (h₀ : hs₀.Fresh) (g : Geometry hs₀)
    (hb : 2 ≤ hs₀.blockSize) (hp : hs₀.ctrl.pageSize ∣ 2 ^ 64) (m₀ : Loc → BitVec 8)
    (tr₁ tr₂ : List (Data × Data.Move)) (s₁ s₂ : Data)
    (hr₁ : Run Data.step (Data.init hs₀ m₀) tr₁ s₁) (hr₂ : Run Data.step s₁ tr₂ s₂)
    (hproper : ∀ x ∈ tr₁ ++ tr₂, x.1.proper x.2 = true) (j : Nat) (c : IoThread)
    (hc : s₂.host.calls[j]? = some c) (hd : c.io.distinct hs₀ = true) (hnew : s₁.NotStarted j)
    (hret : c.stage = .returned c.io.args.size)
    (hfree : Data.Undisturbed hs₀ s₁ tr₂ s₂ j c.io) (b : Nat) (hlt : b < c.io.args.size) :
    ∃ src dst, c.io.ends hs₀ b = some (src, dst) ∧ s₂.media dst = s₁.media src ∧
      s₂.media src = s₁.media src := by
  obtain ⟨hS₁, -⟩ := Data.run_sound h₀ g hr₁ (.init h₀)
    fun x hx => hproper x (List.mem_append_left _ hx)
  have htr := Data.run_tracked h₀ g hb hp hS₁ hr₂ (fun x hx => hproper x (List.mem_append_right _ hx))
    hc hd hnew hfree
  exact htr.bytes hc hret hlt

/-- The read of the run: its two bytes are in memory. -/
theorem io_call_moves_its_bytes_read :
    ∃ tr s₁ s₂, Run Data.step s₁ tr s₂ ∧ s₂.media (.mem 0x200000#64) = s₁.media (.disk 4) ∧
      s₂.media (.mem 0x200001#64) = s₁.media (.disk 5) := by
  obtain ⟨tr₁, s₁, tr₂, s₂, hr₁, hr₂, hproper, -, hl₂, hv₁, hv₂⟩ := write_then_read_run
  obtain ⟨c, hc, hcv⟩ := exists_call_of_views (j := 1) hv₂ rfl
  have hmove := io_call_moves_its_bytes tinyBlocks tinyBlocks_fresh tinyBlocks_geometry (by decide)
    (by decide) twoBytes tr₁ tr₂ s₁ s₂ hr₁ hr₂ hproper 1 c hc (congrArg CallView.distinct hcv)
    (notStarted_of_views hv₁ (by decide)) (returned_of_view hcv rfl)
    (undisturbed_of_views hv₁ hv₂ hl₂ (by decide) rfl (by simp [writeView]))
  have hsize : c.io.args.size = 2 := congrArg CallView.size hcv
  obtain ⟨src, dst, he, hm, -⟩ := hmove 0 (by omega)
  obtain ⟨src', dst', he', hm', -⟩ := hmove 1 (by omega)
  cases (congrArg CallView.first hcv).symm.trans he
  cases (congrArg CallView.second hcv).symm.trans he'
  exact ⟨tr₂, s₁, s₂, hr₂, hm, hm'⟩

/-- A byte that no call made or under way is to write, and that nobody else changes, stays as it is,
whatever the calls return. No wait runs out: the command of a call that has given up could still be
under way. -/
theorem io_frame (hs₀ : HandleState) (h₀ : hs₀.Fresh) (g : Geometry hs₀) (hb : 2 ≤ hs₀.blockSize)
    (m₀ : Loc → BitVec 8) (tr₁ tr₂ : List (Data × Data.Move)) (s₁ s₂ : Data)
    (hr₁ : Run Data.step (Data.init hs₀ m₀) tr₁ s₁) (hr₂ : Run Data.step s₁ tr₂ s₂)
    (hproper : ∀ x ∈ tr₁ ++ tr₂, x.1.proper x.2 = true) (x : Loc)
    (hcalls : ∀ (j : Nat) (c : IoThread), s₂.host.calls[j]? = some c → ¬ s₁.HasReturned j →
      ¬ c.io.Writes hs₀ x)
    (hothers : ∀ s v, (s, .other x v) ∉ tr₂) : s₂.media x = s₁.media x := by
  obtain ⟨hS₁, -⟩ := Data.run_sound h₀ g hr₁ (.init h₀)
    fun y hy => hproper y (List.mem_append_left _ hy)
  obtain ⟨-, hS₂⟩ := Data.run_sound h₀ g hr₂ hS₁
    fun y hy => hproper y (List.mem_append_right _ hy)
  refine (Run.inv (fun s => s.media x = s₁.media x) (fun s m => (s, m) ∈ tr₂) ?_ hr₂ rfl
    fun y hy => hy).1
  intro s m s' hi hx hs
  cases m with
  | host m =>
    obtain ⟨-, -, hmedia, -⟩ := Data.step_host hs
    rw [hmedia]
    exact hi
  | dma i k o junk =>
    obtain ⟨seq, src, dst, v, os, ht, rfl, -⟩ := Data.step_dma hs
    obtain ⟨j, c, -, hc, hnot, hw⟩ := Data.run_writer g hb hr₂ hS₂ hx ht
    refine (Function.update_of_ne ?_ _ _).trans hi
    rintro rfl
    exact hcalls j c hc hnot hw
  | other y v =>
    cases hs
    refine (Function.update_of_ne ?_ _ _).trans hi
    rintro rfl
    exact hothers s v hx

/-- The read of the run leaves the block on the namespace as it is. -/
theorem io_frame_read :
    ∃ tr s₁ s₂, Run Data.step s₁ tr s₂ ∧ tr ≠ [] ∧ s₂.media (.disk 4) = s₁.media (.disk 4) := by
  obtain ⟨tr₁, s₁, tr₂, s₂, hr₁, hr₂, hproper, -, hl₂, hv₁, hv₂⟩ := write_then_read_run
  refine ⟨tr₂, s₁, s₂, hr₂, ?_, io_frame tinyBlocks tinyBlocks_fresh tinyBlocks_geometry (by decide)
    twoBytes tr₁ tr₂ s₁ s₂ hr₁ hr₂ hproper (.disk 4) ?_ fun s v => tinyMoves_others hl₂ s _ v⟩
  · rintro rfl
    cases hl₂
  · intro j c hc hnot
    obtain ⟨c₀, hc₀, hcv₀⟩ := exists_call_of_views (j := 0) hv₁ rfl
    obtain ⟨c₁, hc₁, hcv₁⟩ := exists_call_of_views (j := 1) hv₂ rfl
    have hlt := (List.getElem?_eq_some_iff.mp hc).1
    rw [length_of_views hv₂] at hlt
    have hj : j = 0 ∨ j = 1 := by
      simp only [List.length_cons, List.length_nil] at hlt
      omega
    rcases hj with rfl | rfl
    · exact absurd ⟨c₀, _, hc₀, returned_of_view hcv₀ rfl⟩ hnot
    · rw [hc] at hc₁
      cases hc₁
      rintro ⟨b, src, he⟩
      obtain ⟨_, _, _, _, -, hb, -, -⟩ := IoCall.ends_cases he
      have hsize : c.io.args.size = 2 := congrArg CallView.size hcv₁
      obtain rfl | rfl : b = 0 ∨ b = 1 := by omega
      · cases (congrArg CallView.first hcv₁).symm.trans he
      · cases (congrArg CallView.second hcv₁).symm.trans he

/-- A write and after it a read of the same bytes of the namespace, which both return their sizes, each
undisturbed; no wait runs out. A byte read is the byte that was written. The calls may be cut into
commands differently and use different buffers. -/
theorem io_read_after_write (hs₀ : HandleState) (h₀ : hs₀.Fresh) (g : Geometry hs₀)
    (hb : 2 ≤ hs₀.blockSize) (hp : hs₀.ctrl.pageSize ∣ 2 ^ 64) (m₀ : Loc → BitVec 8)
    (tr₁ tr₂ tr₃ : List (Data × Data.Move)) (s₁ s₂ s₃ : Data)
    (hr₁ : Run Data.step (Data.init hs₀ m₀) tr₁ s₁) (hr₂ : Run Data.step s₁ tr₂ s₂)
    (hr₃ : Run Data.step s₂ tr₃ s₃)
    (hproper : ∀ x ∈ tr₁ ++ tr₂ ++ tr₃, x.1.proper x.2 = true) (jw jr : Nat) (w r : IoThread)
    (hw : s₂.host.calls[jw]? = some w) (hr : s₃.host.calls[jr]? = some r)
    (hdw : w.io.distinct hs₀ = true) (hdr : r.io.distinct hs₀ = true)
    (hop : w.io.args.opcode = NVM_IO_WRITE ∧ r.io.args.opcode = NVM_IO_READ)
    (hnew : s₁.NotStarted jw ∧ s₂.NotStarted jr)
    (hret : w.stage = .returned w.io.args.size ∧ r.stage = .returned r.io.args.size)
    (hfw : Data.Undisturbed hs₀ s₁ tr₂ s₂ jw w.io) (hfr : Data.Undisturbed hs₀ s₂ tr₃ s₃ jr r.io)
    (b b' : Nat) (hlt : b < w.io.args.size ∧ b' < r.io.args.size)
    (hsame : w.io.args.fileOffset.toNat + b = r.io.args.fileOffset.toNat + b') :
    ∃ a a' x, w.io.ends hs₀ b = some (.mem a, .disk x) ∧ r.io.ends hs₀ b' = some (.disk x, .mem a') ∧
      s₃.media (.mem a') = s₁.media (.mem a) := by
  obtain ⟨hS₁, -⟩ := Data.run_sound h₀ g hr₁ (.init h₀) fun x hx => hproper x (by simp [hx])
  obtain ⟨hS₂, -⟩ := Data.run_sound h₀ g hr₂ hS₁ fun x hx => hproper x (by simp [hx])
  have htw := Data.run_tracked h₀ g hb hp hS₁ hr₂ (fun x hx => hproper x (by simp [hx])) hw hdw
    hnew.1 hfw
  have htr := Data.run_tracked h₀ g hb hp hS₂ hr₃ (fun x hx => hproper x (by simp [hx])) hr hdr
    hnew.2 hfr
  obtain ⟨src, dst, he, hv, -⟩ := htw.bytes hw hret.1 hlt.1
  obtain ⟨src', dst', he', hv', -⟩ := htr.bytes hr hret.2 hlt.2
  obtain ⟨_, _, _, a, -, -, -, hm⟩ := IoCall.ends_cases he
  obtain ⟨_, _, _, a', -, -, -, hm'⟩ := IoCall.ends_cases he'
  rw [hop.1] at hm
  rw [hop.2, ← hsame] at hm'
  cases hm
  cases hm'
  exact ⟨_, _, _, he, he', hv'.trans hv⟩

/-- The bytes that the run writes first are those it reads last. -/
theorem io_read_after_write_bytes :
    ∃ tr s, Run Data.step (Data.init tinyBlocks twoBytes) tr s ∧ s.media (.mem 0x200000#64) = 0xaa#8 ∧
      s.media (.mem 0x200001#64) = 0xbb#8 := by
  obtain ⟨tr₁, s₁, tr₂, s₂, hr₁, hr₂, hproper, hl₁, hl₂, hv₁, hv₂⟩ := write_then_read_run
  obtain ⟨w, hw, hwv⟩ := exists_call_of_views (j := 0) hv₁ rfl
  obtain ⟨r, hr, hrv⟩ := exists_call_of_views (j := 1) hv₂ rfl
  have hv₀ : (Data.init tinyBlocks twoBytes).host.calls.map IoThread.view = [] := rfl
  have hback := io_read_after_write tinyBlocks tinyBlocks_fresh tinyBlocks_geometry (by decide)
    (by decide) twoBytes [] tr₁ tr₂ _ s₁ s₂ .refl hr₁ hr₂ hproper 0 1 w r hw hr
    (congrArg CallView.distinct hwv) (congrArg CallView.distinct hrv)
    ⟨congrArg CallView.opcode hwv, congrArg CallView.opcode hrv⟩
    ⟨notStarted_of_views hv₀ (by decide), notStarted_of_views hv₁ (by decide)⟩
    ⟨returned_of_view hwv rfl, returned_of_view hrv rfl⟩
    (undisturbed_of_views hv₀ hv₁ hl₁ (by decide) rfl (by simp))
    (undisturbed_of_views hv₁ hv₂ hl₂ (by decide) rfl (by simp [writeView]))
  have hsw : w.io.args.size = 2 := congrArg CallView.size hwv
  have hsr : r.io.args.size = 2 := congrArg CallView.size hrv
  have hoff : w.io.args.fileOffset = r.io.args.fileOffset :=
    (congrArg CallView.fileOffset hwv).trans (congrArg CallView.fileOffset hrv).symm
  obtain ⟨a, a', x, he, he', hm⟩ := hback 0 0 (by omega) (by rw [hoff])
  obtain ⟨a₁, a₁', x₁, he₁, he₁', hm₁⟩ := hback 1 1 (by omega) (by rw [hoff])
  cases (congrArg CallView.first hwv).symm.trans he
  cases (congrArg CallView.first hrv).symm.trans he'
  cases (congrArg CallView.second hwv).symm.trans he₁
  cases (congrArg CallView.second hrv).symm.trans he₁'
  exact ⟨_, s₂, hr₁.trans hr₂, hm, hm₁⟩

end UGDS
