import UGDS.Api.Effect
import UGDS.Api.Unmaps
import UGDS.Lib.Keys

/-!
# UGDS.Api.Registry

The global `g_driver` over runs of the whole library: `buf_registry` and `default_ctrl`.

* `World.BufsMatch`: what a call does to `buf_registry`, against the calls of `nvm_dma_map_device` and
  `nvm_dma_unmap` that it makes.
* `buf_registry_exact`: the handles that `uGDSBufRegister` has made and that are not unmapped are the
  values of `buf_registry`; calls that fail leave them alone.
* `default_ctrl_exact`: `default_ctrl` always names a registered handle, and it is set as long as
  handles are registered exactly when the default handle is deregistered last and the driver is
  opened without handles.
* `default_ctrl_lost`: with two handles, deregistering the first leaves no default.
-/

namespace UGDS

open Nvm Lib Drv

/-! ## The buffer registry -/

/-- Every handle made is in the registry or was unmapped, and only once; every pointer has at most
one entry; without an open driver there are none. -/
structure World.RegistryInv (w : World) : Prop where
  live : (w.bufRegistry.map Buf.id ++ w.unmapped).Perm (List.range w.nextBuf)
  keys : (w.bufRegistry.map Buf.key).Nodup
  closed : w.initialized = false → w.bufRegistry = []

/-- The registry and the handles made and unmapped so far. -/
def World.bufs (w : World) : List Buf × Nat × List Nat := (w.bufRegistry, w.nextBuf, w.unmapped)

namespace World

variable {w w' : World} {l : Label} {ret : Ret}

theorem RegistryInv.of_same (h : w.RegistryInv) (hb : w'.bufs = w.bufs)
    (hi : w'.initialized = w.initialized) : w'.RegistryInv := by
  simp only [bufs, Prod.mk.injEq] at hb
  obtain ⟨h1, h2, h3⟩ := hb
  exact ⟨by rw [h1, h2, h3]; exact h.live, by rw [h1]; exact h.keys, by rw [h1, hi]; exact h.closed⟩

theorem findBuf_none {base : Nat} (h : w.findBuf base = none) :
    base ∉ w.bufRegistry.map Buf.key := by
  intro hmem
  obtain ⟨b, hb, rfl⟩ := List.mem_map.mp hmem
  simpa using List.find?_eq_none.mp h b hb

/-- One step. The cases in which the registry changes are those of the three calls. -/
theorem RegistryInv.effect (h : w.RegistryInv) (he : Effect w l ret w') : w'.RegistryInv := by
  cases he with
  | opened => exact ⟨h.live, h.keys, by simp⟩
  | closed hi =>
    refine ⟨?_, List.nodup_nil, fun _ => rfl⟩
    show (w.unmapped ++ w.bufRegistry.map Buf.id).Perm (List.range w.nextBuf)
    exact List.perm_append_comm.trans h.live
  | refused hl he => exact h.of_same rfl rfl
  | notReset he => exact h.of_same rfl rfl
  | notBuilt he => exact h.of_same rfl rfl
  | registered hi hid hbuilt haq ho hq => exact h.of_same rfl rfl
  | deregistered hf => exact h.of_same rfl rfl
  | bufRegistered hi hnew hd hf hc =>
    refine ⟨?_, ?_, fun hn => ?_⟩
    · rw [List.map_append, List.append_assoc, List.range_succ]
      refine List.Perm.trans ?_ (h.live.append_right _)
      rw [List.append_assoc]
      exact List.perm_append_comm.append_left _
    · rw [List.map_append]
      exact nodup_snoc h.keys (findBuf_none hnew)
    · exact absurd (hi.symm.trans hn) (by decide)
  | @bufDeregistered current base b k log hi hb =>
    have hmem : b ∈ w.bufRegistry := List.mem_of_find?_eq_some hb
    have hkey : b.key = base := by simpa using List.find?_some hb
    have hp := filter_ne_perm h.keys hmem
    rw [hkey] at hp
    refine ⟨?_, ?_, fun hn => absurd (hi.symm.trans hn) (by decide)⟩
    · refine List.Perm.trans ?_ h.live
      refine List.Perm.trans ?_ ((hp.map Buf.id).symm.append_right w.unmapped)
      rw [List.map_cons, List.cons_append, ← List.append_assoc]
      exact List.perm_append_singleton _ _
    · exact h.keys.sublist ((List.filter_sublist).map _)
  | transferred hf hm => exact h.of_same rfl rfl
  | acted hf hm ht => exact h.of_same rfl rfl
  | actedFreed hf hs => exact h.of_same rfl rfl

/-- A call that fails changes neither the registry nor what is mapped. -/
theorem bufs_of_failed (he : Effect w l ret w') (hf : ret.Failed) : w'.bufs = w.bufs := by
  cases he with
  | opened => exact absurd rfl hf
  | closed hi => exact absurd rfl hf
  | bufRegistered hi hnew hd hf' hc => exact absurd rfl hf
  | bufDeregistered hi hb => exact absurd rfl hf
  | _ => rfl

/-! ### The entries that come and go -/

/-- The entries of `buf_registry` that are no longer there in `w'`. -/
def left (w w' : World) : List Buf :=
  w.bufRegistry.filter fun b => b.id ∉ w'.bufRegistry.map Buf.id

/-- The entries that a call adds and takes out, against what it asks of the kernel. -/
structure BufsMatch (P : Nat) (w : World) (l : Label) (w' : World) : Prop where
  /-- A new entry is the handle that `nvm_dma_map_device` has made in this call, for the pointer that
  is its key. -/
  made : w'.nextBuf = w.nextBuf ∧ (∀ b ∈ w'.bufRegistry, b ∈ w.bufRegistry) ∨
    ∃ env current base length id hs dma, l = .bufRegister env current base length ∧
      w.defaultCtrl = some id ∧ w.find id = some hs ∧
      w.mapDevice P env current hs base length = (w'.k, .ok dma) ∧
      w'.bufRegistry = w.bufRegistry ++ [⟨base, w.nextBuf, dma⟩] ∧ w'.nextBuf = w.nextBuf + 1
  /-- A call of `uGDSBufRegister` that adds no entry has not mapped anything. -/
  notMade : ∀ env current base length, l = .bufRegister env current base length →
    w'.nextBuf = w.nextBuf →
      w'.k = w.k ∨ ∃ hs err, w.mapDevice P env current hs base length = (w'.k, .error err)
  /-- `unmapped` records the entries that leave. -/
  recorded : w'.unmapped = w.unmapped ++ (w.left w').map Buf.id
  /-- Each of them is passed to `nvm_dma_unmap` once, and nothing else is. -/
  unmaps : ∀ current, l.takesOut = some current →
    unmapCalls w'.log = unmapCalls w.log ++ (w.left w').map Buf.dma ∧
      w'.k = (w.left w').foldl (fun k b => (k.unmap current b.dma.vaddr).k) w.k
  /-- No other call takes an entry out. -/
  stays : l.takesOut = none → w.left w' = []
  /-- And what it passes to `nvm_dma_unmap` are handles of its own. -/
  own : l.takesOut = none → UnmapsOnly (fun d => w.OwnHandle P d l) w.log w'.log

theorem left_eq_nil (h : ∀ b ∈ w.bufRegistry, b ∈ w'.bufRegistry) : w.left w' = [] :=
  List.filter_eq_nil_iff.mpr fun b hb => by simpa using ⟨b, h b hb, rfl⟩

/-- A call that does not change the registry. -/
theorem BufsMatch.of_same {P : Nat} (hb : w'.bufs = w.bufs)
    (hk : ∀ env current base length, l = .bufRegister env current base length →
      w'.k = w.k ∨ ∃ hs err, w.mapDevice P env current hs base length = (w'.k, .error err))
    (hu : ∀ current, l.takesOut = some current → w'.log = w.log ∧ w'.k = w.k)
    (ho : l.takesOut = none → UnmapsOnly (fun d => w.OwnHandle P d l) w.log w'.log) :
    w.BufsMatch P l w' := by
  simp only [bufs, Prod.mk.injEq] at hb
  obtain ⟨hreg, hnext, hun⟩ := hb
  have hleft : w.left w' = [] := left_eq_nil fun b hb => by rwa [hreg]
  refine ⟨.inl ⟨hnext, fun b hb => by rwa [← hreg]⟩, fun env current base length hl _ => ?_, ?_,
    fun current hc => ?_, fun _ => hleft, ho⟩
  · exact hk env current base length hl
  · simp [hleft, hun]
  · simp [hleft, hu current hc]

theorem unmapCalls_append_map {α : Type} (log : List Event) (l : List α) (f : α → Unmap) :
    unmapCalls (log ++ l.map fun a => .unmap (f a)) =
      unmapCalls log ++ l.map fun a => (f a).dma := by
  simp [unmapCalls, List.filterMap_append, List.filterMap_map]

theorem driverClose_match {P : Nat} (w : World) (current : Task) :
    w.BufsMatch P (.driverClose current) (w.driverClose current).2 := by
  unfold driverClose
  split
  · exact .of_same rfl (fun _ _ _ _ _ => .inl rfl) (fun _ _ => ⟨rfl, rfl⟩) fun _ => .refl _ _
  rw [foldl_unmapBuf]
  have hleft (w' : World) (h : w'.bufRegistry = []) : w.left w' = w.bufRegistry :=
    List.filter_eq_self.mpr fun b _ => by simp [h]
  refine ⟨.inl ⟨rfl, fun b hb => absurd hb List.not_mem_nil⟩, fun _ _ _ _ _ _ => ?_, ?_,
    fun c hc => ?_, fun hc => absurd hc (by simp [Label.takesOut]),
    fun hc => absurd hc (by simp [Label.takesOut])⟩
  · contradiction
  · rw [hleft _ rfl]
  · cases hc
    rw [hleft _ rfl]
    exact ⟨unmapCalls_append_map .., rfl⟩

/-- The entry of a pointer is the only one that leaves when the pointer is taken out. -/
theorem RegistryInv.left_filter (h : w.RegistryInv) {b : Buf} (hb : b ∈ w.bufRegistry)
    (hw : w'.bufRegistry = w.bufRegistry.filter fun e => e.key ≠ b.key) : w.left w' = [b] := by
  have hids : (w.bufRegistry.map Buf.id).Nodup :=
    (List.nodup_append.mp (h.live.nodup_iff.mpr List.nodup_range)).1
  rw [left, ← filter_eq_singleton h.keys hb]
  refine List.filter_congr fun x hx => decide_eq_decide.mpr ⟨fun hnot => ?_, fun hkey hmem => ?_⟩
  · by_contra hne
    refine hnot (List.mem_map_of_mem ?_)
    rw [hw]
    exact List.mem_filter.mpr ⟨hx, by simpa using hne⟩
  · obtain ⟨y, hy, hid⟩ := List.mem_map.mp hmem
    rw [hw, List.mem_filter] at hy
    rw [List.inj_on_of_nodup_map hids hy.1 hx hid] at hy
    simp [hkey] at hy

theorem bufDeregister_match {P : Nat} (h : w.RegistryInv) (current : Task) (base : Nat) :
    w.BufsMatch P (.bufDeregister current base) (w.bufDeregister current base).2 := by
  unfold bufDeregister
  split
  · exact .of_same rfl (fun _ _ _ _ _ => .inl rfl) (fun _ _ => ⟨rfl, rfl⟩) fun _ => .refl _ _
  split
  · exact .of_same rfl (fun _ _ _ _ _ => .inl rfl) (fun _ _ => ⟨rfl, rfl⟩) fun _ => .refl _ _
  rename_i b hb
  have hmem : b ∈ w.bufRegistry := List.mem_of_find?_eq_some hb
  have hkey : b.key = base := by simpa using List.find?_some hb
  have hleft (w' : World) (hw : w'.bufRegistry = w.bufRegistry.filter fun e => e.key ≠ base) :
      w.left w' = [b] := h.left_filter hmem (by rw [hw, hkey])
  refine ⟨.inl ⟨rfl, fun x hx => (List.mem_filter.mp hx).1⟩, fun _ _ _ _ _ _ => ?_, ?_,
    fun c hc => ?_, fun hc => absurd hc (by simp [Label.takesOut]),
    fun hc => absurd hc (by simp [Label.takesOut])⟩
  · contradiction
  · rw [hleft _ rfl]
    rfl
  · cases hc
    rw [hleft _ rfl]
    exact ⟨unmapCalls_append_map w.log [b] fun b => ⟨b.dma, none, w.pairs, .empty⟩, rfl⟩

theorem bufRegister_match {P : Nat} {env : DeviceMapEnv} {current : Task} {base length : Nat}
    {e : OpError} (h : w.bufRegister P env current base length = some (e, w')) :
    w.BufsMatch P (.bufRegister env current base length) w' := by
  obtain ⟨-, k, rfl, hk⟩ | ⟨id, hs, k, dma, -, -, -, hd, hf, hm, rfl⟩ := bufRegister_cases h
  · refine .of_same rfl (fun _ _ _ _ hl => ?_) (fun _ hc => absurd hc (by simp [Label.takesOut]))
      fun _ => .refl _ _
    cases hl
    exact hk
  · have hleft (w' : World) (hw : w'.bufRegistry = w.bufRegistry ++ [⟨base, w.nextBuf, dma⟩]) :
        w.left w' = [] := left_eq_nil fun b hb => by rw [hw]; exact List.mem_append_left _ hb
    refine ⟨.inr ⟨env, current, base, length, id, hs, dma, rfl, hd, hf, hm, rfl, rfl⟩,
      fun _ _ _ _ _ hn => absurd hn (Nat.succ_ne_self _), ?_,
      fun _ hc => absurd hc (by simp [Label.takesOut]), fun _ => hleft _ rfl, fun _ => .refl _ _⟩
    rw [hleft _ rfl]
    simp

/-- The calls that have nothing to do with the registry. -/
theorem bufs_of_other (he : Effect w l ret w') (hl : l.takesOut = none)
    (hr : ∀ env current base length, l ≠ .bufRegister env current base length) :
    w'.bufs = w.bufs := by
  cases he with
  | closed hi => cases hl
  | bufDeregistered hi hb => cases hl
  | bufRegistered hi hnew hd hf hc => exact absurd rfl (hr _ _ _ _)
  | _ => rfl

theorem call_match {dev : Device} {j : Nat} (h : w.RegistryInv)
    (hc : w.call dev (2 ^ j) l = some (ret, w')) : w.BufsMatch (2 ^ j) l w' := by
  have hother (hl : l.takesOut = none)
      (hr : ∀ env current base length, l ≠ .bufRegister env current base length) :
      w.BufsMatch (2 ^ j) l w' :=
    .of_same (bufs_of_other (call_effect hc) hl hr)
      (fun env current base length he => absurd he (hr env current base length))
      (fun _ ht => by rw [hl] at ht; cases ht) (call_unmaps hc)
  cases l with
  | driverClose current =>
    cases hc
    exact driverClose_match w current
  | bufDeregister current base =>
    cases hc
    exact bufDeregister_match h current base
  | bufRegister env current base length =>
    obtain ⟨⟨e, w₁⟩, hr, he⟩ := Option.map_eq_some_iff.mp hc
    cases he
    exact bufRegister_match hr
  | _ => exact hother rfl (by simp)

theorem registryInv_init (nCtrls : Nat) : (init nCtrls).RegistryInv :=
  ⟨List.Perm.refl _, List.nodup_nil, fun _ => rfl⟩

end World

/-- In every reachable state the handles made by `uGDSBufRegister` and not unmapped are the values of
`buf_registry`, each under one pointer; none was unmapped twice; the registry is empty when the
driver is not open. An entry is added when `nvm_dma_map_device` has made its handle, and it leaves
with one `nvm_dma_unmap` of that handle; a call that takes no entry out unmaps only handles of its own.
A call that returns an error changes neither the registry nor the mappings. -/
theorem buf_registry_exact {dev : Device} {j nCtrls : Nat} {tr : List (World × Label)} {w : World}
    (hrun : Run (World.step dev (2 ^ j)) (.init nCtrls) tr w) :
    (∀ id, id ∈ w.bufRegistry.map Buf.id ↔ id < w.nextBuf ∧ id ∉ w.unmapped) ∧
      (w.bufRegistry.map Buf.id).Nodup ∧ (w.bufRegistry.map Buf.key).Nodup ∧
      w.unmapped.Nodup ∧ (∀ id ∈ w.unmapped, id < w.nextBuf) ∧
      (w.initialized = false → w.bufRegistry = []) ∧
      ∀ l ret w', w.call dev (2 ^ j) l = some (ret, w') →
        w.BufsMatch (2 ^ j) l w' ∧
        (ret.Failed →
          w'.bufRegistry = w.bufRegistry ∧ w'.nextBuf = w.nextBuf ∧ w'.unmapped = w.unmapped) := by
  have hinv : w.RegistryInv := World.run_inv World.RegistryInv (fun _ _ => True)
    (fun _ _ _ _ h _ he => h.effect he) hrun (World.registryInv_init nCtrls) fun _ _ => trivial
  have hnd := hinv.live.nodup_iff.mpr List.nodup_range
  obtain ⟨hreg, hun, hdis⟩ := List.nodup_append.mp hnd
  have hmem (id : Nat) : id ∈ w.bufRegistry.map Buf.id ∨ id ∈ w.unmapped ↔ id < w.nextBuf := by
    rw [← List.mem_append, hinv.live.mem_iff, List.mem_range]
  refine ⟨fun id => ⟨fun h => ?_, fun ⟨h1, h2⟩ => ?_⟩, hreg, hinv.keys, hun,
    fun id h => (hmem id).mp (.inr h), hinv.closed,
    fun l ret w' hc => ⟨World.call_match hinv hc, fun hf => ?_⟩⟩
  · exact ⟨(hmem id).mp (.inl h), fun h' => hdis id h id h' rfl⟩
  · exact ((hmem id).mpr h1).resolve_right h2
  · have := World.bufs_of_failed (World.call_effect hc) hf
    simpa [World.bufs] using this

/-- Three buffers registered, the first taken out, and a second registration of the second one
refused. -/
theorem buf_registry_exact_three :
    ∃ tr w, Run (World.step .prompt (2 ^ 12)) (.init 1) tr w ∧
      w.bufRegistry.map Buf.id = [1, 2] ∧ w.unmapped = [0] ∧
      (unmapCalls w.log).map NvmDma.vaddr = [0x200000] ∧
      (w.initialized = false → w.bufRegistry = []) := by
  obtain ⟨tr, w, hr, -, hw⟩ := follow_run (World.step .prompt (2 ^ 12)) (fun _ _ => true) (.init 1)
    [.driverOpen, .handleRegister (.ok 0), .bufRegister .ok ⟨0, 0⟩ 0x200000 4096,
      .bufRegister .ok ⟨0, 0⟩ 0x300000 4096, .bufDeregister ⟨0, 0⟩ 0x200000,
      .bufRegister .ok ⟨0, 0⟩ 0x300000 4096, .bufRegister .ok ⟨0, 0⟩ 0x200000 4096]
    (fun w => w.bufRegistry.map Buf.id = [1, 2] && w.unmapped = [0] &&
      (unmapCalls w.log).map NvmDma.vaddr = [0x200000]) (by decide +kernel)
  simp only [Bool.and_eq_true, decide_eq_true_eq] at hw
  exact ⟨tr, w, hr, hw.1.1, hw.1.2, hw.2, (buf_registry_exact hr).2.2.2.2.2.1⟩

/-! ## The default controller -/

namespace World

/-- The handle `id` is registered. -/
def Live (w : World) (id : Nat) : Prop := ∃ hs ∈ w.handles, hs.ctrlId = id

/-- The default is a registered handle's controller, and there is one only while the driver is
open. -/
structure DefaultInv (w : World) : Prop where
  live : ∀ id, w.defaultCtrl = some id → w.Live id
  closed : w.initialized = false → w.defaultCtrl = none

/-- With the driver open and a handle registered, buffers can be registered: there is a default, and
`uGDSBufRegister` does not answer that the driver is not initialized. -/
def Usable (w : World) : Prop :=
  w.initialized = true → w.handles ≠ [] →
    (∃ id, w.defaultCtrl = some id ∧ w.Live id) ∧
      ∀ P env current base length, ∃ e w', w.bufRegister P env current base length = some (e, w') ∧
        e ≠ .DRIVER_NOT_INITIALIZED

/-- The driver is opened only with no handle registered or with a default, and the default handle
is deregistered last. -/
def KeepsDefault (w : World) : Label → Prop
  | .driverOpen => w.handles ≠ [] → w.defaultCtrl ≠ none
  | .handleDeregister _ h => w.defaultCtrl = some h → ∀ hs ∈ w.handles, hs.ctrlId = h
  | _ => True

variable {w w' : World} {l : Label} {ret : Ret}

theorem live_iff_find {id : Nat} : w.Live id ↔ ∃ hs, w.find id = some hs := by
  constructor
  · rintro ⟨hs, hm, rfl⟩
    cases hf : w.find hs.ctrlId with
    | none =>
      have := List.find?_eq_none.mp hf hs hm
      simp at this
    | some x => exact ⟨x, rfl⟩
  · rintro ⟨hs, hf⟩
    exact ⟨hs, find_mem hf⟩

/-- Using a handle's queue pairs leaves the same handles registered. -/
theorem live_setHandle {hs hs' : HandleState} {id : Nat} (hm : hs.Moves hs')
    (hf : w.find hs.ctrlId = some hs) : (w.setHandle hs').Live id ↔ w.Live id := by
  constructor
  · rintro ⟨x, hx, rfl⟩
    rcases mem_setHandle hx with hx | rfl
    · exact ⟨x, hx, rfl⟩
    · exact ⟨hs, (find_mem hf).1, hm.ctrlId.symm⟩
  · rintro ⟨x, hx, rfl⟩
    refine ⟨_, List.mem_map_of_mem hx, ?_⟩
    split
    · rename_i he
      exact he.symm
    · rfl

/-- The default is enough: the rest of `uGDSBufRegister` finds its handle. -/
theorem Usable.of_default (hi : w.DefaultInv)
    (h : w.initialized = true → w.handles ≠ [] → w.defaultCtrl ≠ none) : w.Usable := by
  intro hinit hne
  obtain ⟨id, hd⟩ := Option.ne_none_iff_exists'.mp (h hinit hne)
  refine ⟨⟨id, hd, hi.live id hd⟩, fun P env current base length => ?_⟩
  obtain ⟨hs, hf⟩ := live_iff_find.mp (hi.live id hd)
  simp only [bufRegister, hinit, Bool.not_true, Bool.false_eq_true, if_false, hd, hf]
  split
  · exact ⟨_, _, rfl, by decide⟩
  split
  · exact ⟨_, _, rfl, by decide⟩
  split
  · exact ⟨_, _, rfl, by decide⟩
  · exact ⟨_, _, rfl, by decide⟩

theorem Usable.default (h : w.Usable) (hinit : w.initialized = true) (hne : w.handles ≠ []) :
    w.defaultCtrl ≠ none := by
  obtain ⟨⟨id, hd, -⟩, -⟩ := h hinit hne
  rw [hd]
  exact Option.some_ne_none id

theorem DefaultInv.effect (h : w.DefaultInv) (he : Effect w l ret w') : w'.DefaultInv := by
  cases he with
  | opened => exact ⟨h.live, by simp⟩
  | closed hi => exact ⟨by simp, fun _ => rfl⟩
  | refused hl he => exact ⟨h.live, h.closed⟩
  | notReset he => exact ⟨h.live, h.closed⟩
  | notBuilt he => exact ⟨h.live, h.closed⟩
  | @registered r k t log c hs hi hid hbuilt haq ho hq =>
    refine ⟨fun id hd => ?_, fun hn => absurd (hi.symm.trans hn) (by decide)⟩
    simp only at hd
    split at hd
    · cases hd
      exact ⟨hs, List.mem_append_right _ (List.mem_singleton_self hs), hid⟩
    · obtain ⟨x, hx, he⟩ := h.live id hd
      exact ⟨x, List.mem_append_left _ hx, he⟩
  | deregistered hf =>
    refine ⟨fun id hd => ?_, fun hn => ?_⟩
    · simp only at hd
      split at hd
      · cases hd
      · rename_i hne
        obtain ⟨x, hx, rfl⟩ := h.live id hd
        refine ⟨x, List.mem_filter.mpr ⟨hx, ?_⟩, rfl⟩
        simp only [ne_eq, decide_not, Bool.not_eq_eq_eq_not, Bool.not_true, decide_eq_false_iff_not]
        exact fun he => hne (he ▸ hd)
    · simp [h.closed hn]
  | bufRegistered hi hnew hd hf hc => exact ⟨h.live, h.closed⟩
  | bufDeregistered hi hb => exact ⟨h.live, h.closed⟩
  | transferred hf hm =>
    have hf' := (find_mem hf).2 ▸ hf
    exact ⟨fun id hd => (live_setHandle hm hf').mpr (h.live id hd), h.closed⟩
  | acted hf hm ht =>
    have hf' := (find_mem hf).2 ▸ hf
    exact ⟨fun id hd => (live_setHandle hm hf').mpr (h.live id hd), h.closed⟩
  | actedFreed hf hs => exact ⟨h.live, h.closed⟩

theorem defaultInv_init (nCtrls : Nat) : (init nCtrls).DefaultInv := by
  refine ⟨fun _ hd => ?_, fun _ => rfl⟩
  cases hd

/-- From a usable state a step leads to a usable state exactly when it keeps the default. -/
theorem usable_effect (hi : w.DefaultInv) (hu : w.Usable) (he : Effect w l ret w') :
    w'.Usable ↔ w.KeepsDefault l := by
  have hi' := hi.effect he
  have hset : w'.Usable ↔ (w'.initialized = true → w'.handles ≠ [] → w'.defaultCtrl ≠ none) :=
    ⟨fun h => h.default, .of_default hi'⟩
  rw [hset]
  cases he with
  | opened => exact ⟨fun h => h rfl, fun h _ => h⟩
  | closed hi => exact ⟨fun _ => trivial, fun _ hn => absurd hn (by simp)⟩
  | refused hl he =>
    have hk : w.KeepsDefault l := by
      cases l <;> first | exact trivial | exact hl.elim
    exact ⟨fun _ => hk, fun _ => hu.default⟩
  | notReset he => exact ⟨fun _ => trivial, fun _ => hu.default⟩
  | notBuilt he => exact ⟨fun _ => trivial, fun _ => hu.default⟩
  | registered hi hid hbuilt haq ho hq =>
    refine ⟨fun _ => trivial, fun _ _ _ => ?_⟩
    simp only
    split
    · exact Option.some_ne_none _
    · assumption
  | @deregistered current h hs k t log tb pair hf =>
    simp only [KeepsDefault]
    constructor
    · intro hkeep hd x hx
      by_contra hne
      -- another handle stays, and the default is gone
      have hinit : w.initialized = true := by
        by_contra hn
        rw [hi.closed (by simpa using hn)] at hd
        cases hd
      refine hkeep hinit (List.ne_nil_of_mem (List.mem_filter.mpr ⟨hx, by simpa using hne⟩)) ?_
      rw [if_pos hd]
    · intro hkeep hinit hne
      obtain ⟨x, hx⟩ := List.exists_mem_of_ne_nil _ hne
      obtain ⟨hx, hxh⟩ := List.mem_filter.mp hx
      have hdef : w.defaultCtrl ≠ some h := fun hd => by simp [hkeep hd x hx] at hxh
      rw [if_neg hdef]
      exact hu.default hinit (List.ne_nil_of_mem hx)
  | bufRegistered hi hnew hd hf hc => exact ⟨fun _ => trivial, fun _ => hu.default⟩
  | bufDeregistered hi hb => exact ⟨fun _ => trivial, fun _ => hu.default⟩
  | transferred hf hm =>
    exact ⟨fun _ => trivial, fun _ hinit hne => hu.default hinit (by simpa [setHandle] using hne)⟩
  | acted hf hm ht =>
    exact ⟨fun _ => trivial, fun _ hinit hne => hu.default hinit (by simpa [setHandle] using hne)⟩
  | actedFreed hf hs => exact ⟨fun _ => trivial, fun _ => hu.default⟩

end World

/-- In every run: buffers can be registered in every state in which the driver is open and a handle
is registered, exactly if every step keeps the default. In any case `default_ctrl` names no handle
that is not registered. -/
theorem default_ctrl_exact {dev : Device} {j nCtrls : Nat} {tr : List (World × Label)} {w : World}
    (hrun : Run (World.step dev (2 ^ j)) (.init nCtrls) tr w) :
    (((∀ x ∈ tr, x.1.Usable) ∧ w.Usable) ↔ ∀ x ∈ tr, x.1.KeepsDefault x.2) ∧
      ∀ id, w.defaultCtrl = some id → w.Live id := by
  have hstep (s : World) (l : Label) (s' : World) (hi : s.DefaultInv)
      (h : s.step dev (2 ^ j) l = some s') : s'.DefaultInv := by
    obtain ⟨⟨ret, s₁⟩, hc, rfl⟩ := Option.map_eq_some_iff.mp h
    exact hi.effect (World.call_effect hc)
  have hinit : (World.init nCtrls).DefaultInv := World.defaultInv_init nCtrls
  refine ⟨Run.forall_iff World.DefaultInv World.Usable World.KeepsDefault hstep ?_ hrun hinit ?_,
    (Run.inv_all World.DefaultInv hstep hrun hinit).live⟩
  · intro s l s' hi hu h
    obtain ⟨⟨ret, s₁⟩, hc, rfl⟩ := Option.map_eq_some_iff.mp h
    exact World.usable_effect hi hu (World.call_effect hc)
  · intro h
    cases h

/-- Two devices, with the default handle deregistered last. -/
theorem default_ctrl_exact_two :
    ∃ tr w, Run (World.step .prompt (2 ^ 12)) (.init 1) tr w ∧ w.handles.length = 1 ∧
      w.defaultCtrl = some 0 ∧ ((∀ x ∈ tr, x.1.Usable) ∧ w.Usable ↔ ∀ x ∈ tr, x.1.KeepsDefault x.2) := by
  obtain ⟨tr, w, hr, -, hw⟩ := follow_run (World.step .prompt (2 ^ 12)) (fun _ _ => true) (.init 1)
    [.driverOpen, .handleRegister (.ok 0), .handleRegister (.ok 1), .handleDeregister ⟨0, 0⟩ 1]
    (fun w => w.handles.length = 1 && w.defaultCtrl = some 0) (by decide +kernel)
  simp only [Bool.and_eq_true, decide_eq_true_eq] at hw
  exact ⟨tr, w, hr, hw.1, hw.2, (default_ctrl_exact hr).1⟩

/-- Deregistering the handle that was registered first leaves the other one without a default. -/
theorem default_ctrl_lost :
    ¬ ∀ (dev : Device) (j nCtrls : Nat) (tr : List (World × Label)) (w : World),
      Run (World.step dev (2 ^ j)) (.init nCtrls) tr w → w.Usable := by
  intro h
  obtain ⟨tr, w, hr, -, hw⟩ := follow_run (World.step .prompt (2 ^ 12)) (fun _ _ => true) (.init 1)
    [.driverOpen, .handleRegister (.ok 0), .handleRegister (.ok 1), .handleDeregister ⟨0, 0⟩ 0]
    (fun w => w.initialized && w.handles.length = 1 && w.defaultCtrl = none) (by decide +kernel)
  simp only [Bool.and_eq_true, decide_eq_true_eq] at hw
  obtain ⟨⟨hinit, hlen⟩, hd⟩ := hw
  exact (h _ _ _ tr w hr).default hinit (List.ne_nil_of_length_pos (by omega)) hd

end UGDS
