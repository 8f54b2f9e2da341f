import UGDS.Io.Footprint

/-!
# UGDS.Io.Data

The bytes that calls of `do_io` move, for any number of calls on one handle.

`Threads` is put together with the bytes of the namespace and of memory. The controller moves the
bytes of a fetched command one at a time, in any order and as often as it likes, and may put
anything into the place of a byte that it is to write (`dma`). It reports success only for a command
all of whose bytes it has moved (`honest`); about a command that fails nothing is assumed. Whoever
else there is may change any byte (`other`). The queues and the list pages are not among these bytes.

* `Data.Sound`: the invariants of `Threads`, and what the controller has moved. Every timely step
  keeps it (`step_sound`).
* `Data.Tracked`: what has arrived of one call that nobody disturbs.
* `io_call_moves_its_bytes`, `io_frame`, `io_read_after_write`: what follows for every run.
-/

namespace UGDS

open Nvm Lib

/-- `moved i n` are the bytes of the `n`-th command of pair `i` that the controller has moved. -/
structure Data where
  host : Threads
  media : Loc → BitVec 8
  moved : Nat → Nat → List Nat

namespace Data

inductive Move where
  | host (m : Threads.Move)
  | dma (i k o : Nat) (junk : Option (BitVec 8))
  | other (x : Loc) (v : BitVec 8)

def init (hs : HandleState) (media : Loc → BitVec 8) : Data := ⟨.init hs, media, fun _ _ => []⟩

/-- The controller reports success only when it has moved every byte. -/
def honest (s : Data) : Threads.Move → Bool
  | .device i (.complete k e) =>
    match s.host.hs.qps[i]? with
    | none => true
    | some q =>
      match q.pair.fetched[k]? with
      | none => true
      | some (seq, cmd) =>
        e.status != 0 ||
          (List.range (cmd.nBlocks * s.host.hs.blockSize)).all fun o => (s.moved i seq).contains o
  | _ => true

/-- Byte `o` of the `k`-th command that the controller holds of pair `i`: the command's number, and
from where to where the byte goes. -/
def target (s : Data) (i k o : Nat) : Option (Nat × Loc × Loc) :=
  match s.host.hs.qps[i]? with
  | none => none
  | some q =>
    match q.pair.fetched[k]? with
    | none => none
    | some (seq, cmd) =>
      match cmd.ends s.host.hs q.pair.prpAddr q.pair.prp o with
      | none => none
      | some (src, dst) => some (seq, src, dst)

/-- `moved` with the bytes of one command replaced. -/
def mark (moved : Nat → Nat → List Nat) (i seq : Nat) (os : List Nat) : Nat → Nat → List Nat :=
  Function.update moved i (Function.update (moved i) seq os)

def step (s : Data) : Move → Option Data
  | .host m =>
    if s.honest m then
      match s.host.step m with
      | none => none
      | some host => some { s with host := host }
    else none
  | .dma i k o junk =>
    match s.target i k o with
    | none => none
    | some (seq, src, dst) =>
      match junk with
      | none =>
        some { s with
          media := Function.update s.media dst (s.media src)
          moved := mark s.moved i seq (o :: s.moved i seq) }
      | some v =>
        some { s with
          media := Function.update s.media dst v
          moved := mark s.moved i seq ((s.moved i seq).filter fun o' => o' != o) }
  | .other x v => some { s with media := Function.update s.media x v }

/-- No wait runs out, and buffers are mapped in whole pages of the controller. -/
def proper (s : Data) : Move → Bool
  | .host (.enter io) => io.aligned s.host.hs
  | .host m => s.host.timely m
  | _ => true

section Step

variable {s s' : Data}

theorem mark_self (moved : Nat → Nat → List Nat) (i seq : Nat) (os : List Nat) :
    mark moved i seq os i seq = os := by
  simp [mark]

theorem mark_of_ne {moved : Nat → Nat → List Nat} {i seq i' seq' : Nat} (os : List Nat)
    (h : i' ≠ i ∨ seq' ≠ seq) : mark moved i seq os i' seq' = moved i' seq' := by
  unfold mark
  by_cases hi : i' = i
  · subst hi
    rw [Function.update_self, Function.update_of_ne (h.resolve_left (fun hn => hn rfl))]
  · rw [Function.update_of_ne hi]

theorem step_host {m : Threads.Move} (h : s.step (.host m) = some s') :
    s.honest m = true ∧ s.host.step m = some s'.host ∧ s'.media = s.media ∧ s'.moved = s.moved := by
  simp only [step] at h
  split at h
  · rename_i hon
    split at h
    · cases h
    · rename_i host hst
      cases h
      exact ⟨hon, hst, rfl, rfl⟩
  · cases h

/-- The byte gets some value, and is marked only if it gets the one from its source. -/
theorem step_dma {i k o : Nat} {junk : Option (BitVec 8)} (h : s.step (.dma i k o junk) = some s') :
    ∃ seq src dst v os, s.target i k o = some (seq, src, dst) ∧
      s' = ⟨s.host, Function.update s.media dst v, mark s.moved i seq os⟩ ∧
      ∀ o' ∈ os, (o' ∈ s.moved i seq ∧ o' ≠ o) ∨ (o' = o ∧ v = s.media src) := by
  simp only [step] at h
  split at h
  · cases h
  · rename_i seq src dst ht
    split at h
    · cases h
      refine ⟨seq, src, dst, _, _, ht, rfl, fun o' ho' => ?_⟩
      by_cases he : o' = o
      · exact .inr ⟨he, rfl⟩
      · exact .inl ⟨(List.mem_cons.mp ho').resolve_left he, he⟩
    · rename_i v
      cases h
      refine ⟨seq, src, dst, v, _, ht, rfl, fun o' ho' => ?_⟩
      obtain ⟨h1, h2⟩ := List.mem_filter.mp ho'
      exact .inl ⟨h1, by simpa using h2⟩

theorem target_cases {i k o seq : Nat} {src dst : Loc} (h : s.target i k o = some (seq, src, dst)) :
    ∃ q cmd, s.host.hs.qps[i]? = some q ∧ q.pair.fetched[k]? = some (seq, cmd) ∧
      cmd.ends s.host.hs q.pair.prpAddr q.pair.prp o = some (src, dst) := by
  unfold target at h
  split at h
  · cases h
  · rename_i q hq
    split at h
    · cases h
    · rename_i seq' cmd hf
      split at h
      · cases h
      · rename_i src' dst' he
        cases h
        exact ⟨q, cmd, hq, hf, he⟩

end Step

/-! ## What the steps of the calls leave alone -/

section Host

variable {s s' : Threads}

theorem getElem?_set_cases {α : Type} {l : List α} {i k : Nat} {a x : α}
    (h : (l.set i a)[k]? = some x) : (k = i ∧ x = a) ∨ (k ≠ i ∧ l[k]? = some x) := by
  by_cases hk : k = i
  · subst hk
    rw [List.getElem?_set_self'] at h
    obtain ⟨y, -, hy⟩ := Option.map_eq_some_iff.mp h
    exact .inl ⟨rfl, hy.symm⟩
  · rw [List.getElem?_set_ne (Ne.symm hk)] at h
    exact .inr ⟨hk, h⟩

theorem setPair_get {hs : HandleState} {i k : Nat} {q q' : IOQueuePair} {pair : Qp}
    (h : (Threads.setPair hs i q pair).qps[k]? = some q') :
    (k = i ∧ q' = { q with pair := pair }) ∨ (k ≠ i ∧ hs.qps[k]? = some q') :=
  getElem?_set_cases h

/-- A step inside the critical section neither fetches nor posts anything. -/
theorem advance_same {hs : HandleState} {dma : NvmDma} {op : BitVec 8} {size : Nat} {l : IoLocals}
    {qp : Qp} {t : Turn} (h : l.advance hs dma op size qp = some t) :
    t.qp.posted = qp.posted ∧ t.qp.nFetched = qp.nFetched := by
  have hpoll (found : IoLocals) (again : Nat → IoLocals) (left : Nat) :
      (IoLocals.poll found again left qp).qp.posted = qp.posted ∧
        (IoLocals.poll found again left qp).qp.nFetched = qp.nFetched := by
    unfold IoLocals.poll
    split
    · rename_i cpl q hd
      obtain rfl : q = qp.dequeue.2 := (congrArg Prod.snd hd).symm
      exact ⟨rfl, rfl⟩
    · rename_i q hd
      obtain rfl : q = qp.dequeue.2 := (congrArg Prod.snd hd).symm
      split <;> exact ⟨rfl, rfl⟩
  unfold IoLocals.advance at h
  split at h
  · split at h
    · cases h
      exact ⟨rfl, rfl⟩
    · simp only at h
      split at h
      · cases h
        exact ⟨rfl, rfl⟩
      · split at h
        · cases h
          exact ⟨rfl, rfl⟩
        · rename_i slot qp₁ henq
          obtain ⟨x, -, hx⟩ := Option.map_eq_some_iff.mp henq
          cases hx
          split at h
          · cases h
          · rename_i qp₂ hiss
            obtain ⟨cid, prp1, prp2, prp, -, rfl⟩ := ioIssue_put hiss
            cases h
            exact ⟨rfl, rfl⟩
  · cases h
    exact hpoll _ _ _
  · cases h
    exact hpoll _ _ _

/-- What a step does to the queue pairs: only an action of the controller fetches or posts. -/
theorem step_pairs {m : Threads.Move} (h : s.step m = some s') {i : Nat} {q' : IOQueuePair}
    (hq' : s'.hs.qps[i]? = some q') :
    ∃ q, s.hs.qps[i]? = some q ∧
      ((q'.pair.posted = q.pair.posted ∧ q'.pair.nFetched = q.pair.nFetched) ∨
        ∃ a, m = .device i a ∧ q'.pair = q.pair.devStep a) := by
  cases m with
  | enter io =>
    obtain ⟨stage, rr, rfl, -⟩ := Threads.step_enter h
    exact ⟨q', hq', .inl ⟨rfl, rfl⟩⟩
  | lock j =>
    obtain ⟨c, dma, start, -, -, -, rfl⟩ := Threads.step_lock h
    exact ⟨q', hq', .inl ⟨rfl, rfl⟩⟩
  | advance j =>
    obtain ⟨c, dma, l, q, t, -, -, hq, he, rfl⟩ := Threads.step_advance h
    rcases setPair_get hq' with ⟨rfl, rfl⟩ | ⟨-, hk⟩
    · exact ⟨q, hq, .inl (advance_same he)⟩
    · exact ⟨q', hk, .inl ⟨rfl, rfl⟩⟩
  | device k a =>
    obtain ⟨q, hq, rfl⟩ := Threads.step_device h
    rcases setPair_get hq' with ⟨rfl, rfl⟩ | ⟨-, hk⟩
    · exact ⟨q, hq, .inr ⟨a, rfl, rfl⟩⟩
    · exact ⟨q', hk, .inl ⟨rfl, rfl⟩⟩

/-- Calls keep their arguments, and stay as they are once they have returned. -/
theorem step_calls {m : Threads.Move} (h : s.step m = some s') {j : Nat} {c : IoThread}
    (hc : s.calls[j]? = some c) :
    ∃ c', s'.calls[j]? = some c' ∧ c'.io = c.io ∧ ∀ ret, c.stage = .returned ret → c' = c := by
  have hlt := (List.getElem?_eq_some_iff.mp hc).1
  have hset {j' : Nat} {c₁ c₂ : IoThread} (hc₁ : s.calls[j']? = some c₁) (hio : c₂.io = c₁.io)
      (hst : ∀ ret, c₁.stage ≠ .returned ret) :
      ∃ c', (s.calls.set j' c₂)[j]? = some c' ∧ c'.io = c.io ∧
        ∀ ret, c.stage = .returned ret → c' = c := by
    by_cases hj : j' = j
    · subst hj
      rw [hc] at hc₁
      cases hc₁
      exact ⟨c₂, List.getElem?_set_self hlt, hio, fun ret hret => absurd hret (hst ret)⟩
    · exact ⟨c, (List.getElem?_set_ne hj).trans hc, rfl, fun _ _ => rfl⟩
  cases m with
  | enter io =>
    obtain ⟨stage, rr, rfl, -⟩ := Threads.step_enter h
    exact ⟨c, (List.getElem?_append_left hlt).trans hc, rfl, fun _ _ => rfl⟩
  | lock j' =>
    obtain ⟨c₁, dma, start, hc₁, hst, -, rfl⟩ := Threads.step_lock h
    exact hset hc₁ rfl (fun ret hret => by rw [hst] at hret; cases hret)
  | advance j' =>
    obtain ⟨c₁, dma, l, q, t, hc₁, hst, -, -, rfl⟩ := Threads.step_advance h
    exact hset hc₁ rfl (fun ret hret => by rw [hst] at hret; cases hret)
  | device k a =>
    obtain ⟨q, -, rfl⟩ := Threads.step_device h
    exact ⟨c, hc, rfl, fun _ _ => rfl⟩

/-- A call of the new state is one of the old state, or the one that has just entered. -/
theorem step_calls_back {m : Threads.Move} (h : s.step m = some s') {j : Nat} {c' : IoThread}
    (hc' : s'.calls[j]? = some c') :
    (∃ c, s.calls[j]? = some c ∧ c.io = c'.io) ∨ (j = s.calls.length ∧ m = .enter c'.io) := by
  by_cases hlt : j < s.calls.length
  · have hc : s.calls[j]? = some s.calls[j] := List.getElem?_eq_getElem hlt
    obtain ⟨c'', hc'', hio, -⟩ := step_calls h hc
    rw [hc'] at hc''
    cases hc''
    exact .inl ⟨_, hc, hio.symm⟩
  · have hlen {l : List IoThread} (hl : l.length = s.calls.length) : l[j]? ≠ some c' := by
      rw [List.getElem?_eq_none (by omega)]
      simp
    cases m with
    | enter io =>
      obtain ⟨stage, rr, rfl, -⟩ := Threads.step_enter h
      have hj := (List.getElem?_eq_some_iff.mp hc').1
      simp only [List.length_append, List.length_singleton] at hj
      obtain rfl : j = s.calls.length := by omega
      have hc' : (s.calls ++ [_])[s.calls.length]? = some c' := hc'
      rw [List.getElem?_concat_length] at hc'
      cases hc'
      exact .inr ⟨rfl, rfl⟩
    | lock j' =>
      obtain ⟨c₁, dma, start, -, -, -, rfl⟩ := Threads.step_lock h
      exact absurd hc' (hlen List.length_set)
    | advance j' =>
      obtain ⟨c₁, dma, l, q, t, -, -, -, -, rfl⟩ := Threads.step_advance h
      exact absurd hc' (hlen List.length_set)
    | device k a =>
      obtain ⟨q, -, rfl⟩ := Threads.step_device h
      exact absurd hc' (hlen rfl)

end Host

/-! ## The invariant -/

structure Sound (hs₀ : HandleState) (s : Data) : Prop where
  host : Threads.Sound hs₀ s.host
  cursors : Threads.Cursors hs₀ s.host
  aligned : ∀ (j : Nat) (c : IoThread), s.host.calls[j]? = some c → c.io.aligned hs₀ = true
  fresh : ∀ (i : Nat) (q : IOQueuePair) (n : Nat), s.host.hs.qps[i]? = some q →
    q.pair.nFetched ≤ n → s.moved i n = []
  posted : ∀ (i : Nat) (q : IOQueuePair) (d : Post), s.host.hs.qps[i]? = some q →
    d ∈ q.pair.posted → d.cpl.status = 0 →
      ∀ o, o < d.cmd.nBlocks * hs₀.blockSize → o ∈ s.moved i d.seq

section Sound

variable {hs₀ : HandleState} {s s' : Data}

theorem Sound.init {media : Loc → BitVec 8} (h : hs₀.Fresh) : Sound hs₀ (init hs₀ media) := by
  refine ⟨.init h, .init hs₀, ?_, fun _ _ _ _ _ => rfl, ?_⟩
  · intro j c hc
    simp [Data.init, Threads.init] at hc
  · intro i q d hq hd
    have hq : hs₀.qps[i]? = some q := hq
    rw [(h.pairs q (List.mem_of_getElem? hq)).empty.2] at hd
    cases hd

theorem Sound.block_eq (h : Sound hs₀ s) : s.host.hs.blockSize = hs₀.blockSize := by
  rw [h.host.static]

theorem Sound.ends_eq (h : Sound hs₀ s) (cmd : NvmCmd) (a : BitVec 64) (prp : Nat → BitVec 64)
    (o : Nat) : cmd.ends s.host.hs a prp o = cmd.ends hs₀ a prp o := by
  rw [h.host.static]
  rfl

/-- A command in the controller's hands has not been completed. -/
theorem Sound.not_posted (h : Sound hs₀ s) {i k seq : Nat} {cmd : NvmCmd} {q : IOQueuePair}
    (hq : s.host.hs.qps[i]? = some q) (hf : q.pair.fetched[k]? = some (seq, cmd)) :
    seq < q.pair.nFetched ∧ ∀ d ∈ q.pair.posted, d.seq ≠ seq := by
  obtain ⟨n, hinv⟩ : ∃ n, q.pair.Inv n := by
    cases hown : s.host.owner i with
    | none => exact ⟨_, (h.host.free i q hq hown).inv⟩
    | some j =>
      obtain ⟨c, dma, l, hc, rfl, hst⟩ := h.cursors.owned i j hown
      obtain ⟨-, ds, n, hin⟩ := h.host.inside hc hst hq
      exact ⟨n, hin.serial.inv⟩
  have hmem : seq ∈ q.pair.fetched.map Prod.fst :=
    List.mem_map_of_mem (f := Prod.fst) (List.mem_of_getElem? hf)
  refine ⟨List.mem_range.mp (hinv.seqs.subset (List.mem_append_right _ hmem)), fun d hd he => ?_⟩
  have hnd := hinv.seqs.nodup_iff.mpr List.nodup_range
  exact (List.nodup_append.mp hnd).2.2 d.seq (List.mem_map_of_mem hd) seq hmem he

theorem step_sound_host (h₀ : hs₀.Fresh) (g : Geometry hs₀) (h : Sound hs₀ s) {m : Threads.Move}
    (hp : s.proper (.host m) = true) (hs : s.step (.host m) = some s') : Sound hs₀ s' := by
  obtain ⟨hon, hst, -, hmv⟩ := step_host hs
  have ht : s.host.timely m = true := by
    cases m <;> first | rfl | exact hp
  refine ⟨Threads.step_sound h₀ h.host ht hst, Threads.step_cursors g h.host h.cursors hst, ?_, ?_, ?_⟩
  · intro j c' hc'
    rcases step_calls_back hst hc' with ⟨c, hc, hio⟩ | ⟨-, rfl⟩
    · rw [← hio]
      exact h.aligned j c hc
    · have hal : c'.io.aligned s.host.hs = true := hp
      rw [h.host.static] at hal
      exact hal
  · intro i q' n hq' hn
    obtain ⟨q, hq, ⟨-, hnf⟩ | ⟨a, rfl, hpair⟩⟩ := step_pairs hst hq'
    · rw [hmv]
      exact h.fresh i q n hq (by omega)
    · rw [hmv]
      refine h.fresh i q n hq (le_trans ?_ hn)
      rw [hpair]
      cases a with
      | fetch =>
        simp only [Qp.devStep]
        split
        · exact le_refl _
        · exact Nat.le_succ _
      | complete k e =>
        simp only [Qp.devStep]
        split
        · exact le_refl _
        · split <;> exact le_refl _
  · intro i q' d hq' hd hst0 o ho
    rw [hmv]
    obtain ⟨q, hq, ⟨hpo, -⟩ | ⟨a, rfl, hpair⟩⟩ := step_pairs hst hq'
    · rw [hpo] at hd
      exact h.posted i q d hq hd hst0 o ho
    · rw [hpair] at hd
      cases a with
      | fetch =>
        simp only [Qp.devStep] at hd
        split at hd
        · exact h.posted i q d hq hd hst0 o ho
        · exact h.posted i q d hq hd hst0 o ho
      | complete k e =>
        simp only [Qp.devStep] at hd
        split at hd
        · exact h.posted i q d hq hd hst0 o ho
        · rename_i seq cmd hf
          split at hd
          · exact h.posted i q d hq hd hst0 o ho
          · rcases List.mem_append.mp hd with hd | hd
            · exact h.posted i q d hq hd hst0 o ho
            · -- the entry just posted: the controller has moved every byte
              rw [List.mem_singleton.mp hd] at hst0 ho ⊢
              have hst0 : (q.pair.cq.entry e).status = 0 := hst0
              rw [CqRing.entry, NvmCpl.status_withPhase] at hst0
              simp only [honest, hq, hf, hst0, bne_self_eq_false, Bool.false_or, List.all_eq_true,
                List.mem_range, List.contains_iff_mem, h.block_eq] at hon
              exact hon o ho

theorem step_sound_dma (h : Sound hs₀ s) {i k o : Nat} {junk : Option (BitVec 8)}
    (hs : s.step (.dma i k o junk) = some s') : Sound hs₀ s' := by
  obtain ⟨seq, src, dst, v, os, ht, rfl, -⟩ := step_dma hs
  obtain ⟨q, cmd, hq, hf, -⟩ := target_cases ht
  obtain ⟨hlt, hnot⟩ := h.not_posted hq hf
  refine ⟨h.host, h.cursors, h.aligned, ?_, ?_⟩
  · intro i' q' n hq' hn
    show mark s.moved i seq os i' n = []
    rw [mark_of_ne os ?_]
    · exact h.fresh i' q' n hq' hn
    · by_cases hi : i' = i
      · subst hi
        rw [hq] at hq'
        cases hq'
        exact .inr (by omega)
      · exact .inl hi
  · intro i' q' d hq' hd hst0 o' ho'
    show o' ∈ mark s.moved i seq os i' d.seq
    rw [mark_of_ne os ?_]
    · exact h.posted i' q' d hq' hd hst0 o' ho'
    · by_cases hi : i' = i
      · subst hi
        rw [hq] at hq'
        cases hq'
        exact .inr (hnot d hd)
      · exact .inl hi

theorem step_sound (h₀ : hs₀.Fresh) (g : Geometry hs₀) (h : Sound hs₀ s) {m : Move}
    (hp : s.proper m = true) (hs : s.step m = some s') : Sound hs₀ s' := by
  cases m with
  | host m => exact step_sound_host h₀ g h hp hs
  | dma i k o junk => exact step_sound_dma h hs
  | other x v =>
    cases hs
    exact ⟨h.host, h.cursors, h.aligned, h.fresh, h.posted⟩

theorem run_sound (h₀ : hs₀.Fresh) (g : Geometry hs₀) {tr : List (Data × Move)}
    (hr : Run step s tr s') (h : Sound hs₀ s) (hp : ∀ x ∈ tr, x.1.proper x.2 = true) :
    Sound hs₀ s' ∧ ∀ x ∈ tr, Sound hs₀ x.1 :=
  Run.inv (Sound hs₀) (fun s m => s.proper m = true)
    (fun _ _ _ hi hg hs => step_sound h₀ g hi hg hs) hr h hp

end Sound

end Data

end UGDS
