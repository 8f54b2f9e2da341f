import UGDS.Api.Registry
import UGDS.Io.Exact

/-!
# UGDS.Api.Addresses

Which addresses a controller is given: the data addresses in the commands of a transfer are those of
the buffer's DMA handle, and over runs of the whole library that handle was mapped through a
controller of the same device exactly when the buffer is not registered or `default_ctrl` was on
that device when it was registered.

* `ioLoop_placed`: what a transfer puts into its commands and into the list page.
* `World.BufsMade`: where the entries of `buf_registry` come from.
* `io_addresses`: the two together.
* `io_foreign_address`: a buffer registered through one device and read from another.
-/

namespace UGDS

open Nvm Lib Drv

/-! ## The commands of a transfer -/

/-- The data addresses of a command and of its list page are from `addrs`. `prp₀` is the list page as
the call found it; what it left there is not placed by it. -/
structure AddrsFrom (addrs : List (BitVec 64)) (prpAddr : BitVec 64) (prp₀ : Nat → BitVec 64)
    (x : NvmCmd × (Nat → BitVec 64)) : Prop where
  prp1 : x.1.prp1 ∈ addrs
  prp2 : x.1.prp2 = 0 ∨ x.1.prp2 ∈ addrs ∨ x.1.prp2 = prpAddr
  list : ∀ i, x.2 i ∈ addrs ∨ x.2 i = prp₀ i

theorem prpFill_mem {addrs : List (BitVec 64)} {page k : Nat} {prp prp' : Nat → BitVec 64}
    (h : prpFill addrs page k prp = some prp') (i : Nat) : prp' i ∈ addrs ∨ prp' i = prp i := by
  induction k generalizing prp' with
  | zero =>
    cases h
    exact .inr rfl
  | succ k ih =>
    simp only [prpFill] at h
    split at h
    · rename_i prp₁ a h₁ ha
      cases h
      by_cases hi : i = k
      · subst hi
        rw [Function.update_self]
        exact .inl (List.mem_of_getElem? ha)
      · rw [Function.update_of_ne hi]
        exact ih h₁
    · cases h

theorem dataPtrs_from {addrs : List (BitVec 64)} {page n : Nat} {prpAddr : BitVec 64}
    {prp prp' : Nat → BitVec 64} {cmd : NvmCmd}
    (h : dataPtrs addrs page n prpAddr prp = some (cmd.prp1, cmd.prp2, prp')) :
    AddrsFrom addrs prpAddr prp (cmd, prp') := by
  simp only [dataPtrs] at h
  split at h
  · split at h
    · rename_i a ha
      simp only [Option.some.injEq, Prod.mk.injEq] at h
      obtain ⟨rfl, h2, rfl⟩ := h
      exact ⟨List.mem_of_getElem? ha, .inl h2.symm, fun i => .inr rfl⟩
    · cases h
  · split at h
    · split at h
      · rename_i a b ha hb
        simp only [Option.some.injEq, Prod.mk.injEq] at h
        obtain ⟨rfl, rfl, rfl⟩ := h
        exact ⟨List.mem_of_getElem? ha, .inr (.inl (List.mem_of_getElem? hb)), fun i => .inr rfl⟩
      · cases h
    · split at h
      · rename_i prp₁ a hp ha
        simp only [Option.some.injEq, Prod.mk.injEq] at h
        obtain ⟨rfl, h2, rfl⟩ := h
        exact ⟨List.mem_of_getElem? ha, .inr (.inr h2.symm), prpFill_mem hp⟩
      · cases h

/-- From `qp` to `q` only addresses of `addrs` were placed. -/
def PlacedOnly (addrs : List (BitVec 64)) (qp q : Qp) : Prop :=
  (∀ i, q.prp i ∈ addrs ∨ q.prp i = qp.prp i) ∧
    ∃ new : List (NvmCmd × (Nat → BitVec 64)), q.cmds = qp.cmds ++ new.map Prod.fst ∧
      q.lists = qp.lists ++ new.map Prod.snd ∧ ∀ x ∈ new, AddrsFrom addrs qp.prpAddr qp.prp x

theorem PlacedOnly.refl (addrs : List (BitVec 64)) (qp : Qp) : PlacedOnly addrs qp qp :=
  ⟨fun _ => .inr rfl, [], by simp, by simp, by simp⟩

theorem PlacedOnly.trans {addrs : List (BitVec 64)} {qp q r : Qp} (ha : q.prpAddr = qp.prpAddr)
    (h : PlacedOnly addrs qp q) (h' : PlacedOnly addrs q r) : PlacedOnly addrs qp r := by
  obtain ⟨hp, new, hc, hl, hn⟩ := h
  obtain ⟨hp', new', hc', hl', hn'⟩ := h'
  have hlist {list : Nat → BitVec 64} (hli : ∀ i, list i ∈ addrs ∨ list i = q.prp i) (i : Nat) :
      list i ∈ addrs ∨ list i = qp.prp i := by
    rcases hli i with h | h
    · exact .inl h
    · rw [h]
      exact hp i
  refine ⟨hlist hp', new ++ new', by rw [hc', hc]; simp, by rw [hl', hl]; simp, fun x hx => ?_⟩
  rcases List.mem_append.mp hx with hx | hx
  · exact hn x hx
  · have hx' := hn' x hx
    exact ⟨hx'.prp1, ha ▸ hx'.prp2, hlist hx'.list⟩

section Loop

variable {dev : Device} {hs : HandleState} {dma : NvmDma} {opcode : BitVec 8} {qp q : Qp}
  {n t t' : Nat}

theorem Sends.placed {chunk lba page : Nat} (h : Sends hs dma opcode chunk lba page qp q) :
    PlacedOnly dma.ioaddrs qp q := by
  rcases h with ⟨hc, hl, hp⟩ | ⟨cid, prp1, prp2, hc, hl, hd⟩
  · exact ⟨fun i => .inr (by rw [hp]), [], by simp [hc], by simp [hl], by simp⟩
  · have hx : AddrsFrom dma.ioaddrs qp.prpAddr qp.prp (rwCmd hs opcode chunk lba cid prp1 prp2, q.prp) :=
      dataPtrs_from (by rw [hd, rwCmd, buildRw_prp1, buildRw_prp2])
    exact ⟨hx.list, [(rwCmd hs opcode chunk lba cid prp1 prp2, q.prp)], by simp [hc], by simp [hl],
      by simpa using hx⟩

theorem ioLoop_placed {size fuel bytesDone lba page : Nat} {ret : Int} (h : qp.Inv n)
    (he : ioLoop dev hs dma opcode size fuel bytesDone lba page t qp = some (ret, t', q)) :
    PlacedOnly dma.ioaddrs qp q := by
  induction fuel using Nat.strongRecOn generalizing bytesDone lba page t qp n with
  | ind fuel ih =>
    rcases ioLoop_cases he with ⟨-, -, rfl⟩ | ⟨-, rfl, -⟩ | ⟨-, chunk, -, hc, -⟩ |
      ⟨fuel', chunk, t₁, q₁, rfl, hc, hl, -⟩
    · exact .refl _ q
    · exact .refl _ q
    · exact (ioChunk_spec h hc).2.2.1.placed
    · obtain ⟨⟨n₁, hi⟩, hg, hsend, -⟩ := ioChunk_spec h hc
      exact hsend.placed.trans hg.prpAddr (ih fuel' (Nat.lt_succ_self fuel') hi hl)

end Loop

/-! ## Where the entries of the registry come from -/

namespace World

/-- The entry `b` was made by a step of `tr`, through the controller that was the default then. -/
def MadeBy (dev : Device) (P : Nat) (tr : List (World × Label)) (w : World) (b : Buf) : Prop :=
  ∃ w₀ w₁ env current length, (w₀, .bufRegister env current b.key length) ∈ tr ∧
    w₀.step dev P (.bufRegister env current b.key length) = some w₁ ∧
    w₀.nextBuf = b.id ∧ b ∈ w₁.bufRegistry ∧ w₀.defaultCtrl = some b.dma.ctrl ∧
    w₀.ctrlDev b.dma.ctrl = w.ctrlDev b.dma.ctrl

structure BufsMade (dev : Device) (P : Nat) (tr : List (World × Label)) (w : World) : Prop
    extends w.Wf, w.DefaultInv where
  bufs : ∀ b ∈ w.bufRegistry, b.dma.ctrl < w.nextId ∧ MadeBy dev P tr w b

variable {dev : Device} {P : Nat} {w w' : World} {l : Label} {ret : Ret} {tr : List (World × Label)}

theorem MadeBy.mono {b : Buf} (h : MadeBy dev P tr w b) (tr' : List (World × Label))
    (hd : w'.ctrlDev b.dma.ctrl = w.ctrlDev b.dma.ctrl) : MadeBy dev P (tr ++ tr') w' b := by
  obtain ⟨w₀, w₁, env, current, length, hm, h1, h2, h3, h4, h5⟩ := h
  exact ⟨w₀, w₁, env, current, length, List.mem_append_left _ hm, h1, h2, h3, h4, h5.trans hd.symm⟩

/-- A step that adds no entry. -/
theorem BufsMade.of_kept (h : BufsMade dev P tr w) (he : Effect w l ret w')
    (hsub : ∀ b ∈ w'.bufRegistry, b ∈ w.bufRegistry) (hn : w.nextId ≤ w'.nextId)
    (hd : ∀ id, id < w.nextId → w'.ctrlDev id = w.ctrlDev id) : BufsMade dev P (tr ++ [(w, l)]) w' := by
  refine ⟨h.toWf.effect he, h.toDefaultInv.effect he, fun b hb => ?_⟩
  obtain ⟨hlt, hm⟩ := h.bufs b (hsub b hb)
  exact ⟨hlt.trans_le hn, hm.mono _ (hd _ hlt)⟩

theorem BufsMade.effect (h : BufsMade dev P tr w) (hs : w.step dev P l = some w')
    (he : Effect w l ret w') : BufsMade dev P (tr ++ [(w, l)]) w' := by
  have hupd (d id : Nat) (hid : id < w.nextId) :
      Function.update w.ctrlDev w.nextId d id = w.ctrlDev id :=
    Function.update_of_ne (Nat.ne_of_lt hid) _ _
  have he' := he
  cases he with
  | opened => exact h.of_kept he' (fun _ hb => hb) le_rfl fun _ _ => rfl
  | closed hi => exact h.of_kept he' (fun _ hb => absurd hb List.not_mem_nil) le_rfl fun _ _ => rfl
  | refused hl he => exact h.of_kept he' (fun _ hb => hb) le_rfl fun _ _ => rfl
  | notReset he => exact h.of_kept he' (fun _ hb => hb) (Nat.le_succ _) (hupd _)
  | notBuilt he => exact h.of_kept he' (fun _ hb => hb) (Nat.le_succ _) (hupd _)
  | registered hi hid hbuilt haq ho hq => exact h.of_kept he' (fun _ hb => hb) (Nat.le_succ _) (hupd _)
  | deregistered hf => exact h.of_kept he' (fun _ hb => hb) le_rfl fun _ _ => rfl
  | @bufRegistered env current base length id _ k dma hi hnew hd hf hc =>
    refine ⟨h.toWf.effect he', h.toDefaultInv.effect he', fun b hb => ?_⟩
    rcases List.mem_append.mp hb with hb | hb
    · obtain ⟨hlt, hm⟩ := h.bufs b hb
      exact ⟨hlt, hm.mono _ rfl⟩
    · have hb' := List.mem_append_right w.bufRegistry hb
      obtain rfl := List.mem_singleton.mp hb
      obtain ⟨hs', hmem, rfl⟩ := h.live id hd
      refine ⟨?_, w, _, env, current, length, ?_, hs, rfl, hb', by rw [hd, hc], rfl⟩
      · rw [hc]
        exact (h.handles hs' hmem).id_lt
      · exact List.mem_append_right _ (List.mem_singleton_self _)
  | bufDeregistered hi hb =>
    exact h.of_kept he' (fun _ hb => (List.mem_filter.mp hb).1) le_rfl fun _ _ => rfl
  | transferred hf hm => exact h.of_kept he' (fun _ hb => hb) le_rfl fun _ _ => rfl
  | acted hf hm ht => exact h.of_kept he' (fun _ hb => hb) le_rfl fun _ _ => rfl
  | actedFreed hf hs => exact h.of_kept he' (fun _ hb => hb) le_rfl fun _ _ => rfl

theorem bufsMade_of_run {j nCtrls : Nat} (hrun : Run (World.step dev (2 ^ j)) (.init nCtrls) tr w) :
    BufsMade dev (2 ^ j) tr w := by
  have hinit : BufsMade dev (2 ^ j) [] (init nCtrls) :=
    ⟨wf_init nCtrls, defaultInv_init nCtrls, by simp [init]⟩
  refine Run.inv_trace (BufsMade dev (2 ^ j)) (fun tr s l s' hi h => ?_) hrun hinit
  obtain ⟨⟨ret, s₁⟩, hc, rfl⟩ := Option.map_eq_some_iff.mp h
  exact hi.effect h (call_effect hc)

end World

/-- A transfer on handle `h` in any reachable state. The data addresses that it places are those of
the DMA handle `dma`. If the buffer is not registered, `dma` was mapped through the controller of
`h`; if it is, then through a controller of the same device exactly if `default_ctrl` was one when
`uGDSBufRegister` made the entry. -/
theorem io_addresses {dev : Device} {j nCtrls : Nat} {tr : List (World × Label)} {w : World}
    (hrun : Run (World.step dev (2 ^ j)) (.init nCtrls) tr w) {h : Nat} {hs : HandleState}
    (hf : w.find h = some hs) {env : World.DeviceMapEnv} {current : Task} {a : IoArgs} {r : IoResult}
    (hr : w.callIo dev (2 ^ j) env current hs a = some r) {dma : NvmDma} (hu : r.used = some dma) :
    (∃ q q', hs.qps[hs.qpIdx]? = some q ∧ r.hs.qps[hs.qpIdx]? = some q' ∧
        PlacedOnly dma.ioaddrs q.pair q'.pair) ∧
      (w.findBuf a.base = none → dma.ctrl = h) ∧
      ∀ b, w.findBuf a.base = some b → dma = b.dma ∧
        ∃ w₀ w₁ env' current' length c,
          (w₀, .bufRegister env' current' a.base length) ∈ tr ∧
          w₀.step dev (2 ^ j) (.bufRegister env' current' a.base length) = some w₁ ∧
          w₀.nextBuf = b.id ∧ b ∈ w₁.bufRegistry ∧ w₀.defaultCtrl = some c ∧
          (w.ctrlDev dma.ctrl = w.ctrlDev h ↔ w₀.ctrlDev c = w.ctrlDev h) := by
  have ht := World.bufsMade_of_run hrun
  obtain ⟨hmem, hid⟩ := World.find_mem hf
  rcases doIo_cases hr with ⟨-, -, -, hn, -⟩ |
    ⟨dma', fly, start, q, ret, t', pair, -, hb, hq, hl, rfl⟩
  · rw [hn] at hu
    cases hu
  cases hu
  refine ⟨⟨q, _, hq, List.getElem?_set_self (List.getElem?_eq_some_iff.mp hq).1, ?_⟩, ?_, ?_⟩
  · obtain ⟨n, hn⟩ := (ht.handles hs hmem).pairs q (List.mem_of_getElem? hq)
    exact ioLoop_placed hn hl
  · intro hnone
    simp only [World.lookup, hnone, Option.map_none, ioBuffer] at hb
    split at hb
    · cases hb
    · rename_i dma' hm
      cases hb
      exact (nvmDmaMapRange_ctrl hm).trans hid
  · intro b hsome
    have hkey : b.key = a.base := by simpa using List.find?_some hsome
    rw [World.lookup, hsome] at hb
    have hdma : dma = b.dma := congrArg Prod.fst (ioBuffer_registered hb).1
    obtain ⟨-, w₀, w₁, env', current', length, hm, h1, h2, h3, h4, h5⟩ :=
      ht.bufs b (List.mem_of_find?_eq_some hsome)
    rw [hkey] at hm h1
    exact ⟨hdma, w₀, w₁, env', current', length, _, hm, h1, h2, h3, h4, by rw [hdma, h5]⟩

/-- A read of one page into the first of two registered buffers, on the device of the default: the
buffer's handle is of that device, and so was the default when the buffer was registered. -/
theorem io_addresses_default :
    ∃ tr w hs r dma b, Run (World.step .prompt (2 ^ 12)) (.init 2) tr w ∧ w.find 0 = some hs ∧
      w.callIo .prompt (2 ^ 12) .ok ⟨0, 0⟩ hs (.page 0x200000) = some r ∧ r.used = some dma ∧
      w.findBuf 0x200000 = some b ∧ dma = b.dma ∧ w.ctrlDev dma.ctrl = w.ctrlDev 0 ∧
      ∃ w₀ env current length c, (w₀, .bufRegister env current 0x200000 length) ∈ tr ∧
        w₀.nextBuf = b.id ∧ w₀.defaultCtrl = some c ∧ w₀.ctrlDev c = w.ctrlDev 0 := by
  obtain ⟨tr, w, hrun, -, hw⟩ := follow_run (World.step .prompt (2 ^ 12)) (fun _ _ => true) (.init 2)
    [.driverOpen, .handleRegister (.ok 0), .handleRegister (.ok 1),
      .bufRegister .ok ⟨0, 0⟩ 0x200000 4096, .bufRegister .ok ⟨0, 0⟩ 0x300000 4096]
    (fun w => (w.findBuf 0x200000).isSome && (w.tryIo (2 ^ 12) 0 (.page 0x200000)).any fun x =>
      w.ctrlDev x.2.2.ctrl = w.ctrlDev 0) (by decide +kernel)
  obtain ⟨hb, hw⟩ := Bool.and_eq_true_iff.mp hw
  obtain ⟨b, hb⟩ := Option.isSome_iff_exists.mp hb
  obtain ⟨⟨hs, r, dma⟩, he, hd⟩ := (Option.any_eq_true _ _).mp hw
  obtain ⟨hf, hr, hu⟩ := World.tryIo_some he
  have hd := of_decide_eq_true hd
  obtain ⟨hdma, w₀, w₁, env, current, length, c, hm, -, hid, -, hc, hiff⟩ :=
    (io_addresses hrun hf hr hu).2.2 b hb
  exact ⟨tr, w, hs, r, dma, b, hrun, hf, hr, hu, hb, hdma, hd, w₀, env, current, length, c, hm, hid, hc,
    hiff.mp hd⟩

/-- The buffer is registered through device 0, and the read on device 1 submits a command with an
address of that mapping. -/
theorem io_foreign_address :
    ¬ ∀ (dev : Device) (j nCtrls : Nat) (tr : List (World × Label)) (w : World),
      Run (World.step dev (2 ^ j)) (.init nCtrls) tr w →
      ∀ (h : Nat) (hs : HandleState), w.find h = some hs →
      ∀ (env : World.DeviceMapEnv) (current : Task) (a : IoArgs) (r : IoResult),
        w.callIo dev (2 ^ j) env current hs a = some r →
      ∀ q q', hs.qps[hs.qpIdx]? = some q → r.hs.qps[hs.qpIdx]? = some q' →
      ∀ cmd ∈ q'.pair.cmds.drop q.pair.cmds.length,
        ∃ dma, r.used = some dma ∧ cmd.prp1 ∈ dma.ioaddrs ∧ w.ctrlDev dma.ctrl = w.ctrlDev h := by
  intro hall
  obtain ⟨tr, w, hrun, -, hw⟩ := follow_run (World.step .prompt (2 ^ 12)) (fun _ _ => true) (.init 2)
    [.driverOpen, .handleRegister (.ok 0), .handleRegister (.ok 1),
      .bufRegister .ok ⟨0, 0⟩ 0x200000 4096]
    (fun w => (w.tryIo (2 ^ 12) 1 (.page 0x200000)).any fun x =>
      w.ctrlDev x.2.2.ctrl ≠ w.ctrlDev 1 && (x.1.qps[x.1.qpIdx]?).any fun q =>
        (x.2.1.hs.qps[x.1.qpIdx]?).any fun q' => (q'.pair.cmds.drop q.pair.cmds.length).length = 1)
    (by decide +kernel)
  obtain ⟨⟨hs, r, dma⟩, he, hw⟩ := (Option.any_eq_true _ _).mp hw
  obtain ⟨hf, hr, hu⟩ := World.tryIo_some he
  obtain ⟨hne, hw⟩ := Bool.and_eq_true_iff.mp hw
  obtain ⟨q, hq, hw⟩ := (Option.any_eq_true _ _).mp hw
  obtain ⟨q', hq', hw⟩ := (Option.any_eq_true _ _).mp hw
  obtain ⟨cmd, hcmd⟩ := List.length_eq_one_iff.mp (of_decide_eq_true hw)
  obtain ⟨dma', hu', -, hd⟩ := hall _ _ _ tr w hrun 1 hs hf _ _ _ r hr q q' hq hq' cmd
    (by rw [hcmd]; exact List.mem_singleton_self cmd)
  rw [hu] at hu'
  cases hu'
  exact of_decide_eq_true hne hd

end UGDS
