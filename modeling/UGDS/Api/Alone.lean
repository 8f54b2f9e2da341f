import UGDS.Api.Effect
import UGDS.Api.Interleaved

/-!
# UGDS.Api.Alone

The calls of `World` are the programs of `Driver` run without interruption: what the sequential model
of the library does to `g_driver` in one step, a call does to it step by step when no other call
overlaps, with the same status.

* `Label.driverCall`: the call of `Driver` that a step of the sequential model is.
* `World.Shows`: the part of the sequential state that the programs work on.
* `bufRegister_alone` and its neighbours: one lemma for each function.
* `world_runs_alone`: every run of the sequential model, call by call.
-/

namespace UGDS

open Nvm Lib Drv

/-- The status that a call returns, if it returns one. -/
def Ret.statusOf : Ret → Option OpError
  | .status e => some e
  | _ => none

/-- The same call with the arguments that matter to `g_driver`. The device makes none. -/
def Label.driverCall : Label → Option DriverCall
  | .driverOpen => some .driverOpen
  | .driverClose _ => some .driverClose
  | .handleRegister r => some (.handleRegister (r.fhNull || r.descrNull) r.opaqueFd)
  | .handleDeregister _ h => some (.handleDeregister h)
  | .bufRegister _ _ base length => some (.bufRegister base length)
  | .bufDeregister _ base => some (.bufDeregister base)
  | .io _ _ _ a => some (.io a.base)
  | .device .. => none

def Buf.entry (b : Buf) : Entry := ⟨b.key, b.id⟩

namespace World

/-- `s` is what the callers of `w` see of `g_driver`. -/
structure Shows (w : World) (s : DriverState) : Prop where
  initialized : s.initialized = w.initialized
  defaultCtrl : s.defaultCtrl = w.defaultCtrl
  bufRegistry : s.bufRegistry = w.bufRegistry.map Buf.entry
  made : s.made.length = w.nextBuf
  unmapped : s.unmapped = w.unmapped
  handles : s.handles = w.handles.map HandleState.ctrlId
  nextCtrl : s.nextCtrl = w.nextId

variable {w w' : World} {s : DriverState}

theorem Shows.find (h : w.Shows s) (base : Nat) : s.find base = (w.findBuf base).map Buf.entry := by
  rw [DriverState.find, h.bufRegistry, List.find?_map, findBuf]
  rfl

/-- Nothing else is shown. -/
def view (w : World) : Bool × Option Nat × List Buf × Nat × List Nat × List Nat × Nat :=
  (w.initialized, w.defaultCtrl, w.bufRegistry, w.nextBuf, w.unmapped,
    w.handles.map HandleState.ctrlId, w.nextId)

theorem Shows.of_view (h : w.Shows s) (hv : w'.view = w.view) : w'.Shows s := by
  simp only [view, Prod.mk.injEq] at hv
  obtain ⟨h1, h2, h3, h4, h5, h6, h7⟩ := hv
  exact ⟨h1 ▸ h.initialized, h2 ▸ h.defaultCtrl, h3 ▸ h.bufRegistry, h4 ▸ h.made, h5 ▸ h.unmapped,
    h6 ▸ h.handles, h7 ▸ h.nextCtrl⟩

/-- A handle is replaced by one with its number. -/
theorem setHandle_view (hs' : HandleState) : (w.setHandle hs').view = w.view := by
  have hids : (w.setHandle hs').handles.map HandleState.ctrlId =
      w.handles.map HandleState.ctrlId := by
    rw [setHandle, List.map_map]
    apply List.map_congr_left
    intro x _
    simp only [Function.comp_apply]
    split
    · rename_i hx
      exact hx.symm
    · rfl
  simp only [view, hids]
  rfl

theorem io_view {dev : Device} {P : Nat} {env : DeviceMapEnv} {current : Task} {h : Nat} {a : IoArgs}
    {n : Int} (hc : w.io dev P env current h a = some (n, w')) : w'.view = w.view := by
  cases io_effect hc with
  | transferred hf hm => exact setHandle_view _

theorem act_view {acts : List DevAct} {which : Which} (ha : w.act acts which = some w') :
    w'.view = w.view := by
  cases act_effect ha with
  | acted hf hm => exact setHandle_view _
  | actedFreed hf hs => rfl

/-- A registration from the allocation of the admin queues' memory on. -/
theorem registerCtrl_view {dev : Device} {P : Nat} {r : RegCall} {mapper : Mapper} {e : OpError}
    (h : registerCtrl dev P w r mapper = some (e, w')) :
    (e = .INTERNAL_ERROR ∧ w'.view = w.view) ∨
      e = .SUCCESS ∧ w'.view = (w.initialized,
        if w.defaultCtrl = none then some mapper.ctrlId else w.defaultCtrl, w.bufRegistry, w.nextBuf,
        w.unmapped, w.handles.map HandleState.ctrlId ++ [mapper.ctrlId], w.nextId) := by
  simp only [registerCtrl] at h
  split at h
  · cases h
    exact .inl ⟨rfl, rfl⟩
  split at h
  · cases h
    exact .inl ⟨rfl, rfl⟩
  split at h
  · cases h
  · rename_i copied _
    cases h
    cases copied <;> exact .inl ⟨rfl, rfl⟩
  · simp only [registerAq] at h
    split at h
    · cases h
    · cases h
      exact .inl ⟨rfl, rfl⟩
    · cases h
      refine .inr ⟨rfl, ?_⟩
      simp only [view, List.map_append]
      rfl

end World

/-! ## The functions one by one -/

/-- A call that runs alone from point `p` and returns `ret`, leaving what `w` shows. -/
def Reaches (s : DriverState) (p : Point) (w : World) (ret : Ret) : Prop :=
  ∃ s', Monitor.Alone driverProgram s p s' (.done ret.statusOf) ∧ w.Shows s'

section Calls

variable {dev : Device} {P : Nat} {w w' : World} {s : DriverState} {e : OpError}

/-- The end of a section. -/
theorem alone_leave {p : Point} : Monitor.Alone driverProgram s (.leave p) s p := .cons true rfl .refl

theorem driverOpen_alone (h : w.Shows s) : Reaches s .openLock w.driverOpen.2 (.status w.driverOpen.1) := by
  refine ⟨{ s with initialized := true }, .cons true rfl (.cons true rfl alone_leave), ?_⟩
  exact ⟨rfl, h.defaultCtrl, h.bufRegistry, h.made, h.unmapped, h.handles, h.nextCtrl⟩

/-- The loop of `uGDSDriverClose`. -/
theorem closeUnmap_alone (s : DriverState) (rest : List Entry) :
    Monitor.Alone driverProgram s (.closeUnmap rest)
      { s with unmapped := s.unmapped ++ rest.map Entry.id } (.closeUnmap []) := by
  induction rest generalizing s with
  | nil =>
    rw [List.map_nil, List.append_nil]
    exact .refl
  | cons e rest ih =>
    have := ih (s.unmap e)
    rw [DriverState.unmap, List.append_assoc] at this
    exact .cons true rfl this

theorem driverClose_alone (h : w.Shows s) (current : Task) :
    Reaches s .closeLock (w.driverClose current).2 (.status (w.driverClose current).1) := by
  unfold World.driverClose
  split
  · rename_i hi
    have hnext : (Point.closeTest).next s true =
        some (s, .leave (.status .DRIVER_NOT_INITIALIZED)) := by
      simp only [Point.next, h.initialized, hi, if_true]
    exact ⟨s, .cons true rfl (.cons true hnext alone_leave), h⟩
  · rename_i hi
    have hnext : (Point.closeTest).next s true = some (s, .closeUnmap s.bufRegistry) := by
      simp only [Point.next, h.initialized, hi, if_false, Bool.false_eq_true]
    refine ⟨_, .cons true rfl (.cons true hnext ((closeUnmap_alone s _).trans
      (.cons true rfl alone_leave))), ?_⟩
    rw [World.foldl_unmapBuf]
    refine ⟨rfl, rfl, rfl, h.made, ?_, h.handles, h.nextCtrl⟩
    simp only [h.unmapped, h.bufRegistry, List.map_map]
    rfl

theorem bufRegister_alone {env : World.DeviceMapEnv} {current : Task} {base length : Nat}
    (h : w.Shows s) (hc : w.bufRegister P env current base length = some (e, w')) :
    Reaches s (.regTest base length) w' (.status e) := by
  have hfind := h.find base
  unfold World.bufRegister at hc
  split at hc
  · rename_i hi
    cases hc
    have hnext : (Point.regTest base length).next s true =
        some (s, .status .DRIVER_NOT_INITIALIZED) := by
      simp only [Point.next, h.initialized, hi, if_true]
    exact ⟨s, .cons true hnext .refl, h⟩
  rename_i hi
  split at hc
  · rename_i hargs
    cases hc
    have hnext : (Point.regTest base length).next s true = some (s, .status .INVALID_VALUE) := by
      simp only [Point.next, h.initialized, hi, hargs, if_true, if_false, Bool.false_eq_true]
    exact ⟨s, .cons true hnext .refl, h⟩
  rename_i hargs
  have htest : (Point.regTest base length).next s true = some (s, .regLock base) := by
    simp only [Point.next, h.initialized, hi, hargs, if_false, Bool.false_eq_true]
  split at hc
  · rename_i hold
    cases hc
    have hnext : (Point.regFind base).next s true =
        some (s, .leave (.status .MEMORY_ALREADY_REGISTERED)) := by
      simp only [Point.next, hfind, Option.isSome_map, hold, if_true]
    exact ⟨s, .cons true htest (.cons true rfl (.cons true hnext alone_leave)), h⟩
  rename_i hnew
  split at hc
  · rename_i hd
    cases hc
    have hnext : (Point.regFind base).next s true =
        some (s, .leave (.status .DRIVER_NOT_INITIALIZED)) := by
      simp only [Point.next, hfind, Option.isSome_map, hnew, h.defaultCtrl, hd, if_false,
        Bool.false_eq_true]
    exact ⟨s, .cons true htest (.cons true rfl (.cons true hnext alone_leave)), h⟩
  rename_i id hd
  have hctrl : (Point.regFind base).next s true = some (s, .regMap base id) := by
    simp only [Point.next, hfind, Option.isSome_map, hnew, h.defaultCtrl, hd, if_false,
      Bool.false_eq_true]
  split at hc
  · cases hc
  split at hc
  · cases hc
    refine ⟨s, .cons true htest (.cons true rfl (.cons true hctrl (.cons false rfl alone_leave))), ?_⟩
    exact h.of_view rfl
  · cases hc
    refine ⟨_, .cons true htest (.cons true rfl (.cons true hctrl (.cons true rfl
      (.cons true rfl alone_leave)))), ?_⟩
    refine ⟨h.initialized, h.defaultCtrl, ?_, ?_, h.unmapped, h.handles, h.nextCtrl⟩
    · simp only [h.bufRegistry, h.made, List.map_append]
      rfl
    · simp only [List.length_append, List.length_singleton, h.made]

theorem bufDeregister_alone (h : w.Shows s) (current : Task) (base : Nat) :
    Reaches s (.deregTest base) (w.bufDeregister current base).2
      (.status (w.bufDeregister current base).1) := by
  have hfind := h.find base
  unfold World.bufDeregister
  split
  · rename_i hi
    have hnext : (Point.deregTest base).next s true = some (s, .status .DRIVER_NOT_INITIALIZED) := by
      simp only [Point.next, h.initialized, hi, if_true]
    exact ⟨s, .cons true hnext .refl, h⟩
  rename_i hi
  have htest : (Point.deregTest base).next s true = some (s, .deregLock base) := by
    simp only [Point.next, h.initialized, hi, if_false, Bool.false_eq_true]
  split
  · rename_i hb
    rw [hb] at hfind
    have hnext : (Point.deregFind base).next s true =
        some (s, .leave (.status .MEMORY_NOT_REGISTERED)) := by
      simp only [Point.next, hfind, Option.map_none]
    exact ⟨s, .cons true htest (.cons true rfl (.cons true hnext alone_leave)), h⟩
  · rename_i b hb
    rw [hb] at hfind
    have hkey : b.key = base := by simpa using List.find?_some hb
    have hnext : (Point.deregFind base).next s true = some (s.unmap b.entry, .deregErase b.entry) := by
      simp only [Point.next, hfind, Option.map_some]
    refine ⟨_, .cons true htest (.cons true rfl (.cons true hnext (.cons true rfl alone_leave))), ?_⟩
    refine ⟨h.initialized, h.defaultCtrl, ?_, h.made, ?_, h.handles, h.nextCtrl⟩
    · show s.bufRegistry.filter _ = (w.bufRegistry.filter _).map Buf.entry
      rw [h.bufRegistry, List.filter_map, ← hkey]
      rfl
    · show s.unmapped ++ [b.id] = w.unmapped ++ [b.id]
      rw [h.unmapped]

theorem handleRegister_alone {r : RegCall} (h : w.Shows s)
    (hc : w.handleRegister dev P r = some (e, w')) :
    Reaches s (.handleTest (r.fhNull || r.descrNull) r.opaqueFd) w' (.status e) := by
  unfold World.handleRegister at hc
  split at hc
  · rename_i hnull
    cases hc
    have hnext : (Point.handleTest (r.fhNull || r.descrNull) r.opaqueFd).next s true =
        some (s, .status .INVALID_VALUE) := by
      simp only [Point.next, hnull, if_true]
    exact ⟨s, .cons true hnext .refl, h⟩
  rename_i hnull
  split at hc
  · rename_i hi
    cases hc
    have hnext : (Point.handleTest (r.fhNull || r.descrNull) r.opaqueFd).next s true =
        some (s, .status .DRIVER_NOT_INITIALIZED) := by
      simp only [Point.next, hnull, h.initialized, hi, if_true, if_false, Bool.false_eq_true]
    exact ⟨s, .cons true hnext .refl, h⟩
  rename_i hi
  split at hc
  · rename_i hfd
    cases hc
    have hnext : (Point.handleTest (r.fhNull || r.descrNull) r.opaqueFd).next s true =
        some (s, .status .INVALID_FILE_TYPE) := by
      simp only [Point.next, hnull, h.initialized, hi, hfd, if_true, if_false, Bool.false_eq_true]
    exact ⟨s, .cons true hnext .refl, h⟩
  rename_i hfd
  have htest : (Point.handleTest (r.fhNull || r.descrNull) r.opaqueFd).next s true =
      some (s, .handleInit) := by
    simp only [Point.next, hnull, h.initialized, hi, hfd, if_false, Bool.false_eq_true]
  split at hc
  · have hn : (w.numbered r).Shows { s with nextCtrl := s.nextCtrl + 1 } :=
      ⟨h.initialized, h.defaultCtrl, h.bufRegistry, h.made, h.unmapped, h.handles,
        congrArg (· + 1) h.nextCtrl⟩
    rcases World.registerCtrl_view hc with ⟨rfl, hv⟩ | ⟨rfl, hv⟩
    · refine ⟨_, .cons true htest (.cons true rfl (.cons false rfl .refl)), ?_⟩
      have hs := hn.of_view hv
      exact ⟨hs.initialized, hs.defaultCtrl, hs.bufRegistry, hs.made, hs.unmapped, hs.handles,
        hs.nextCtrl⟩
    · refine ⟨_, .cons true htest (.cons true rfl (.cons true rfl (.cons true rfl (.cons true rfl
        (alone_leave.trans (.cons true rfl .refl)))))), ?_⟩
      simp only [World.view, Prod.mk.injEq] at hv
      obtain ⟨h1, h2, h3, h4, h5, h6, h7⟩ := hv
      refine ⟨h1 ▸ h.initialized, ?_, h3 ▸ h.bufRegistry, h4 ▸ h.made, h5 ▸ h.unmapped, ?_,
        h7 ▸ hn.nextCtrl⟩
      · rw [h2]
        simp only [h.defaultCtrl, h.nextCtrl]
      · rw [h6]
        simp only [h.handles, h.nextCtrl]
  · cases hc
    exact ⟨s, .cons true htest (.cons false rfl .refl), h⟩

/-- From the moment at which the caller gives its handle up. -/
theorem handleDeregister_alone {current : Task} {id : Nat} (h : w.Shows s) (hnd : s.handles.Nodup)
    (hc : w.handleDeregister dev P current id = some w') :
    id ∈ s.handles ∧ Reaches { s with handles := s.handles.erase id } (.dropLock id) w' .nothing := by
  unfold World.handleDeregister at hc
  split at hc
  · cases hc
  rename_i hs hf
  cases hc
  obtain ⟨hmem, hid⟩ := World.find_mem hf
  refine ⟨?_, _, .cons true rfl (.cons true rfl (alone_leave.trans (.cons true rfl .refl))), ?_⟩
  · rw [h.handles, ← hid]
    exact List.mem_map_of_mem hmem
  · refine ⟨h.initialized, ?_, h.bufRegistry, h.made, h.unmapped, ?_, h.nextCtrl⟩
    · simp only [h.defaultCtrl]
    · show s.handles.erase id = (w.handles.filter fun x => x.ctrlId ≠ id).map HandleState.ctrlId
      rw [hnd.erase_eq_filter, h.handles, List.filter_map]
      congr 1
      apply List.filter_congr
      intro x _
      simp [bne, beq_eq_decide]

theorem io_alone {env : World.DeviceMapEnv} {current : Task} {id : Nat} {a : IoArgs} {n : Int}
    (h : w.Shows s) (hc : w.io dev P env current id a = some (n, w')) :
    Reaches s (.ioLock a.base) w' (.bytes n) :=
  ⟨s, .cons true rfl (.cons true rfl (alone_leave.trans (.cons true rfl .refl))),
    h.of_view (World.io_view hc)⟩

end Calls

/-! ## Runs -/

namespace World

/-- What the moves `moves` of the callers have done in a step `l` that returned `ret`: a call is made
as the next thread, which alone steps until it has returned. -/
def After (m : Driver) (l : Label) (ret : Ret) (moves : List Driver.Move) (m' : Driver) : Prop :=
  match l.driverCall with
  | none => m' = m ∧ moves = []
  | some k => m'.threads = m.threads ++ [.done ret.statusOf] ∧
    ∃ es : List Bool, moves = .call k :: es.map (.step m.threads.length)

variable {dev : Device} {j : Nat} {w w' : World} {m : Driver}

/-- A call whose program runs to its end. -/
theorem run_of_reaches {l : Label} {k : DriverCall} {s : DriverState} {p : Point} {ret : Ret}
    (hlock : m.lock = none) (hk : l.driverCall = some k) (hs : k.start m.shared = some (s, p))
    (h : Reaches s p w' ret) :
    ∃ tr m', Run Driver.step m tr m' ∧ m'.lock = none ∧ w'.Shows m'.shared ∧
      After m l ret (tr.map Prod.snd) m' := by
  obtain ⟨s', ha, hshow⟩ := h
  obtain ⟨es, tr, htr, hr⟩ := ha.run m.threads
  obtain ⟨hp, -⟩ := DriverCall.start_same hs
  rw [show driverProgram.locked p = false from hp] at hr
  refine ⟨_, _, .cons (l := .call k) ?_ hr, rfl, hshow, ?_⟩
  · simp only [Driver.step, Monitor.step]
    rw [show driverProgram.start m.shared k = some (s, p) from hs, hlock]
    rfl
  · unfold After
    rw [hk]
    exact ⟨rfl, es, congrArg (Monitor.Move.call k :: ·) htr⟩

theorem call_alone {l : Label} {ret : Ret} (hl : m.lock = none) (h : w.Shows m.shared)
    (hnd : m.shared.handles.Nodup) (hc : w.call dev (2 ^ j) l = some (ret, w')) :
    ∃ tr m', Run Driver.step m tr m' ∧ m'.lock = none ∧ w'.Shows m'.shared ∧
      After m l ret (tr.map Prod.snd) m' := by
  cases l with
  | driverOpen =>
    cases hc
    exact run_of_reaches hl rfl rfl (driverOpen_alone h)
  | driverClose current =>
    cases hc
    exact run_of_reaches hl rfl rfl (driverClose_alone h current)
  | handleRegister r =>
    obtain ⟨⟨e, w₁⟩, hr, he⟩ := Option.map_eq_some_iff.mp hc
    cases he
    exact run_of_reaches hl rfl rfl (handleRegister_alone h hr)
  | handleDeregister current id =>
    obtain ⟨w₁, hr, he⟩ := Option.map_eq_some_iff.mp hc
    cases he
    obtain ⟨hmem, hreach⟩ := handleDeregister_alone h hnd hr
    exact run_of_reaches hl rfl (if_pos hmem) hreach
  | bufRegister env current base length =>
    obtain ⟨⟨e, w₁⟩, hr, he⟩ := Option.map_eq_some_iff.mp hc
    cases he
    exact run_of_reaches hl rfl rfl (bufRegister_alone h hr)
  | bufDeregister current base =>
    cases hc
    exact run_of_reaches hl rfl rfl (bufDeregister_alone h current base)
  | io env current id a =>
    obtain ⟨⟨n, w₁⟩, hr, he⟩ := Option.map_eq_some_iff.mp hc
    cases he
    exact run_of_reaches hl rfl rfl (io_alone h hr)
  | device acts which =>
    obtain ⟨w₁, hr, he⟩ := Option.map_eq_some_iff.mp hc
    cases he
    exact ⟨[], m, .refl, hl, h.of_view (act_view hr), rfl, rfl⟩

/-- The calls of a run. -/
def calls (tr : List (World × Label)) : List DriverCall := tr.filterMap fun x => x.2.driverCall

/-- What they have returned. -/
def returned (dev : Device) (P : Nat) (tr : List (World × Label)) : List (Option OpError) :=
  tr.filterMap fun x => x.2.driverCall.bind fun _ => (x.1.call dev P x.2).map fun y => y.1.statusOf

/-- The callers after the calls of `tr` were made one after another with the answers in `made`: all
have returned. -/
structure InTurn (dev : Device) (P : Nat) (tr : List (World × Label)) (made : List (DriverCall × List Bool))
    (moves : List Driver.Move) (m : Driver) : Prop where
  calls : made.map Prod.fst = World.calls tr
  moves : moves = Monitor.serial 0 made
  threads : m.threads = (returned dev P tr).map .done
  count : m.threads.length = made.length

theorem InTurn.snoc {tr : List (World × Label)} {made : List (DriverCall × List Bool)}
    {moves moves' : List Driver.Move} {l : Label} {ret : Ret} {m' : Driver}
    (h : InTurn dev (2 ^ j) tr made moves m) (hc : w.call dev (2 ^ j) l = some (ret, w'))
    (ha : After m l ret moves' m') :
    ∃ made', InTurn dev (2 ^ j) (tr ++ [(w, l)]) made' (moves ++ moves') m' := by
  unfold After at ha
  cases hk : l.driverCall with
  | none =>
    simp only [hk] at ha
    obtain ⟨rfl, rfl⟩ := ha
    refine ⟨made, ?_, ?_, ?_, h.count⟩
    · simp [World.calls, hk, h.calls]
    · rw [List.append_nil, h.moves]
    · simp [returned, hk, h.threads]
  | some k =>
    simp only [hk] at ha
    obtain ⟨hthreads, es, rfl⟩ := ha
    refine ⟨made ++ [(k, es)], ?_, ?_, ?_, ?_⟩
    · simp [World.calls, hk, h.calls]
    · rw [Monitor.serial_snoc, h.moves, h.count, Nat.zero_add]
    · rw [hthreads, h.threads]
      simp [returned, hk, hc]
    · simp [hthreads, h.count]

end World

/-- Every run of the sequential model is a run of the concurrent one in which the same calls are made
one after another: each is started when those before it have returned, and until it has returned no
other thread steps. The statuses that they return are the same. At the end nobody has the lock and
both show the same `g_driver`. -/
theorem world_runs_alone {dev : Device} {j nCtrls : Nat} {tr : List (World × Label)} {w : World}
    (hr : Run (World.step dev (2 ^ j)) (.init nCtrls) tr w) :
    ∃ made tr' m, made.map Prod.fst = World.calls tr ∧
      Run Driver.step .init tr' m ∧ tr'.map Prod.snd = Monitor.serial 0 made ∧
      m.threads = (World.returned dev (2 ^ j) tr).map .done ∧ m.lock = none ∧ w.Shows m.shared := by
  have hinit : ∃ made tr' m, Run Driver.step .init tr' m ∧ m.lock = none ∧
      (World.init nCtrls).Shows m.shared ∧
      World.InTurn dev (2 ^ j) [] made (tr'.map Prod.snd) m :=
    ⟨[], [], .init, .refl, rfl, ⟨rfl, rfl, rfl, rfl, rfl, rfl, rfl⟩, ⟨rfl, rfl, rfl, rfl⟩⟩
  have hall : ∃ made tr' m, Run Driver.step .init tr' m ∧ m.lock = none ∧ w.Shows m.shared ∧
      World.InTurn dev (2 ^ j) tr made (tr'.map Prod.snd) m := by
    refine Run.inv_trace (fun tr w => ∃ made tr' m, Run Driver.step .init tr' m ∧ m.lock = none ∧
      w.Shows m.shared ∧ World.InTurn dev (2 ^ j) tr made (tr'.map Prod.snd) m)
      (fun tr w l w' h hs => ?_) hr hinit
    obtain ⟨made, tr', m, hrun, hl, hshow, hturn⟩ := h
    obtain ⟨⟨ret, w₁⟩, hc, he⟩ := Option.map_eq_some_iff.mp hs
    cases he
    have hnd : m.shared.handles.Nodup := by
      have hown := ((Driver.run_inv hrun).1.owned.ctrls.nodup_iff.mpr List.nodup_range)
      exact (List.nodup_append.mp (List.nodup_append.mp hown).1).1
    obtain ⟨tr₂, m', hrun', hl', hshow', hafter⟩ := World.call_alone hl hshow hnd hc
    obtain ⟨made', hturn'⟩ := hturn.snoc hc hafter
    refine ⟨made', tr' ++ tr₂, m', hrun.trans hrun', hl', hshow', ?_⟩
    rw [List.map_append]
    exact hturn'
  obtain ⟨made, tr', m, hrun, hl, hshow, hturn⟩ := hall
  exact ⟨made, tr', m, hturn.calls, hrun, hturn.moves, hturn.threads, hl, hshow⟩

/-- Three buffers are registered and the first is taken out; a second registration of another one is
refused. -/
theorem world_runs_alone_three :
    ∃ tr w made tr' m, Run (World.step .prompt (2 ^ 12)) (.init 1) tr w ∧
      w.bufRegistry.map Buf.id = [1, 2] ∧ Run Driver.step .init tr' m ∧
      tr'.map Prod.snd = Monitor.serial 0 made ∧ made.length = 7 ∧ m.shared.ids = [1, 2] := by
  obtain ⟨tr, w, hr, htr, -, hw⟩ := follow_trace (World.step .prompt (2 ^ 12)) (fun _ _ => true)
    (.init 1)
    [.driverOpen, .handleRegister (.ok 0), .bufRegister .ok ⟨0, 0⟩ 0x200000 4096,
      .bufRegister .ok ⟨0, 0⟩ 0x300000 4096, .bufDeregister ⟨0, 0⟩ 0x200000,
      .bufRegister .ok ⟨0, 0⟩ 0x300000 4096, .bufRegister .ok ⟨0, 0⟩ 0x200000 4096]
    (fun w => w.bufRegistry.map Buf.id = [1, 2]) (by decide +kernel)
  have hids := of_decide_eq_true hw
  obtain ⟨made, tr', m, hmade, hrun, hserial, -, -, hshow⟩ := world_runs_alone hr
  refine ⟨tr, w, made, tr', m, hr, hids, hrun, hserial, ?_, ?_⟩
  · have hcalls : World.calls tr = (tr.map Prod.snd).filterMap Label.driverCall := by
      rw [World.calls, List.filterMap_map]
      rfl
    have hlen := congrArg List.length hmade
    rw [List.length_map, hcalls, htr] at hlen
    exact hlen
  · rw [DriverState.ids, hshow.bufRegistry, List.map_map]
    exact hids

end UGDS
