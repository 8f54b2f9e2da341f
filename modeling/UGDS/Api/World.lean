import UGDS.Api.Register

/-!
# UGDS.Api.World

The whole library: the global `g_driver`, the registered handles, the controllers, and the calls of
the public interface (`ugds_driver.cpp`, `ugds_handle.cpp`, `ugds_buf.cpp`, `ugds_io.cpp`) as steps.

A handle is named by a number that stands for its pointer `hs->ctrl` (`HandleState.ctrlId`). Several
handles may be open on one device. A device serves the admin queue that the last reset has given it,
and with it the I/O queues that were created through it: `Ctlr.owner` is the handle they belong to.
To any other handle it is silent.

Whatever a call meets in its environment (allocations, the kernel, the contents of an Identify page,
the readings of `CSTS`) is an argument of the call. Between calls the device may act on every queue
pair it serves, also on those of handles that are gone. `none` is undefined behaviour or a step that
is not possible. A call with a null handle returns at once and is no step.
-/

namespace UGDS

open Nvm Lib Drv

/-- The members of `uGDSOpError` that the modelled functions return. -/
inductive OpError where
  | SUCCESS
  | DRIVER_NOT_INITIALIZED
  | INVALID_FILE_TYPE
  | INVALID_VALUE
  | MEMORY_ALREADY_REGISTERED
  | MEMORY_NOT_REGISTERED
  | INTERNAL_ERROR
  | GPU_MEMORY_PINNING_FAILED
  deriving DecidableEq, Repr

/-- A controller: the handle whose queues it serves, the registers that a reset writes, and its I/O
queues. -/
structure Ctlr where
  owner : Option Nat
  regs : CtrlRegs
  table : QTable

/-- A queue pair of a handle that is gone. -/
structure Freed where
  ctrlId : Nat
  admin : Bool
  pair : Qp

/-- An entry of `buf_registry`: the pointer it is stored under, and the handle. `id` stands for the
handle's own pointer: handles are numbered in the order in which `uGDSBufRegister` makes them. -/
structure Buf where
  key : Nat
  id : Nat
  dma : NvmDma

/-- `g_driver` is the first three fields. `ctrlDev` is the device that a controller handle was
opened on. `nextBuf` and `unmapped` record how many handles `uGDSBufRegister` has made and which of
them were unmapped, in order; no function of the source reads them. -/
structure World where
  initialized : Bool
  defaultCtrl : Option Nat
  bufRegistry : List Buf
  nextBuf : Nat
  unmapped : List Nat
  handles : List HandleState
  freed : List Freed
  ctlr : Nat → Ctlr
  ctrlDev : Nat → Nat
  nextId : Nat
  k : KState
  t : Nat
  log : List Event

/-- The queue pairs of a handle, the admin pair first. -/
def HandleState.pairs (hs : HandleState) : List Qp := hs.aq :: hs.qps.map IOQueuePair.pair

namespace World

def init (nCtrls : Nat) : World where
  initialized := false
  defaultCtrl := none
  bufRegistry := []
  nextBuf := 0
  unmapped := []
  handles := []
  freed := []
  ctlr := fun _ => ⟨none, ⟨0, 0, 0, 0⟩, .empty⟩
  ctrlDev := fun _ => 0
  nextId := 0
  k := .init nCtrls
  t := 0
  log := []

/-- Every queue pair there has been. -/
def pairs (w : World) : List Qp := w.handles.flatMap HandleState.pairs ++ w.freed.map Freed.pair

/-- All of them but the admin pair of handle `h`. -/
def pairsBut (w : World) (h : Nat) : List Qp :=
  (w.handles.flatMap fun hs => if hs.ctrlId = h then hs.qps.map IOQueuePair.pair else hs.pairs) ++
    w.freed.map Freed.pair

def find (w : World) (h : Nat) : Option HandleState := w.handles.find? fun hs => hs.ctrlId = h

/-- Put `hs` in the place of the handle of that number. -/
def setHandle (w : World) (hs : HandleState) : World :=
  { w with handles := w.handles.map fun x => if x.ctrlId = hs.ctrlId then hs else x }

theorem find_mem {w : World} {h : Nat} {hs : HandleState} (hf : w.find h = some hs) :
    hs ∈ w.handles ∧ hs.ctrlId = h :=
  ⟨List.mem_of_find?_eq_some hf, by simpa using List.find?_some hf⟩

theorem mem_setHandle {w : World} {hs x : HandleState} (h : x ∈ (w.setHandle hs).handles) :
    x ∈ w.handles ∨ x = hs := by
  obtain ⟨y, hy, rfl⟩ := List.mem_map.mp h
  split
  · exact .inr rfl
  · exact .inl hy

/-- `buf_registry.find`. -/
def findBuf (w : World) (base : Nat) : Option Buf := w.bufRegistry.find? fun e => e.key = base

/-- The handle registered for a pointer. -/
def lookup (w : World) (base : Nat) : Option NvmDma := (w.findBuf base).map Buf.dma

def serves (w : World) (h : Nat) : Bool := (w.ctlr (w.ctrlDev h)).owner = some h

/-- The device's behaviour towards handle `h`. -/
def devFor (w : World) (dev : Device) (h : Nat) : Device := if w.serves h then dev else .silent

/-- `nvm_dma_unmap` of memory that is no I/O queue. -/
def unmap (w : World) (current : Task) (dma : NvmDma) (last : Bool) : World :=
  { w with
    k := if last then (w.k.unmap current dma.vaddr).k else w.k
    log := w.log ++ [.unmap ⟨dma, none, w.pairs, .empty⟩] }

/-- The same for a handle of `buf_registry`. -/
def unmapBuf (w : World) (current : Task) (b : Buf) : World :=
  { w.unmap current b.dma true with unmapped := w.unmapped ++ [b.id] }

/-- Start talking to device `d` through the admin pair `pair`. -/
def enter (w : World) (d : Nat) (pair : Qp) : Sess := ⟨⟨w.t, pair⟩, (w.ctlr d).table, w.k, w.log⟩

def leave (w : World) (d : Nat) (s : Sess) : World :=
  { w with
    t := s.admin.t
    k := s.k
    log := s.log
    ctlr := Function.update w.ctlr d { w.ctlr d with table := s.table } }

end World

/-! ## uGDSHandleRegister -/

namespace World

/-- `nvm_raw_ctrl_reset`: the controller loses its I/O queues, and when it is enabled again it
serves the new admin queues. The result is ignored. -/
def reset (w : World) (r : RegCall) (id : Nat) (ctrl : NvmCtrl) (aqDma : NvmDma) : World :=
  let regs := (nvmRawCtrlReset ctrl r.aq.rdy (aqDma.ioaddrs.getD 0 0#64)
    (aqDma.ioaddrs.getD 1 0#64) (w.ctlr r.device).regs).2
  { w with
    ctlr := Function.update w.ctlr r.device ⟨if regs.enabled then some id else none, regs, .empty⟩ }

/-- From the reset on. -/
def registerAq (dev : Device) (P : Nat) (w : World) (r : RegCall) (mapper : Mapper)
    (aqDma : NvmDma) (pair : Qp) : Option (OpError × World) :=
  let id := mapper.ctrlId
  let w := w.reset r id mapper.ctrl aqDma
  match registerQueues ⟨w.devFor dev id, mapper, P, w.pairs⟩ r aqDma (w.enter r.device pair) with
  | none => none
  | some (none, s) =>
    -- the I/O queues that were taken down again had no commands
    some (.INTERNAL_ERROR,
      { w.leave r.device s with freed := w.freed ++ [⟨id, true, s.admin.pair⟩] })
  | some (some b, s) =>
    let hs : HandleState :=
      { fd := r.fd, ctrlId := id, ctrl := mapper.ctrl, aq := s.admin.pair, aqDma := some aqDma
        nsId := 1, blockSize := b.blockSize, maxTransferSize := b.maxTransferSize
        numQps := b.numQps, qps := b.qps, rrCounter := 0 }
    some (.SUCCESS,
      { w.leave r.device s with
        handles := w.handles ++ [hs]
        defaultCtrl := if w.defaultCtrl = none then some id else w.defaultCtrl })

/-- From the allocation of the admin queues' memory on. -/
def registerCtrl (dev : Device) (P : Nat) (w : World) (r : RegCall) (mapper : Mapper) :
    Option (OpError × World) :=
  match r.aqBuf with
  | none => some (.INTERNAL_ERROR, w)
  | some buf =>
    let x := nvmDmaMapHost P w.k r.aqMap.lib r.aqMap.host r.aqMap.copyIn r.aqMap.copyOut mapper buf
      (3 * mapper.ctrl.pageSize)
    let w := { w with k := x.1 }
    match x.2 with
    | .error _ => some (.INTERNAL_ERROR, w)
    | .ok aqDma =>
      match createAdmin mapper.ctrl r.aq aqDma with
      | none => none
      | some (.error (_, copied)) =>
        let w := if copied then w.unmap r.current aqDma false else w
        some (.INTERNAL_ERROR, w.unmap r.current aqDma true)
      | some (.ok pair) => registerAq dev P w r mapper aqDma pair

/-- `uGDSHandleRegister`. -/
def handleRegister (dev : Device) (P : Nat) (w : World) (r : RegCall) : Option (OpError × World) :=
  if r.fhNull || r.descrNull then some (.INVALID_VALUE, w)
  else if !w.initialized then some (.DRIVER_NOT_INITIALIZED, w)
  else if !r.opaqueFd then some (.INVALID_FILE_TYPE, w)
  else
    match r.openErr, nvmCtrlInit r.alloc P r.cap with
    | none, .ok ctrl =>
      let id := w.nextId
      registerCtrl dev P
        { w with nextId := id + 1, ctrlDev := Function.update w.ctrlDev id r.device } r
        ⟨r.current, r.device, ctrl, id⟩
    | _, _ => some (.INTERNAL_ERROR, w)

/-- The world with a number for the new controller. -/
def numbered (w : World) (r : RegCall) : World :=
  { w with nextId := w.nextId + 1, ctrlDev := Function.update w.ctrlDev w.nextId r.device }

def unmaps (w : World) (current : Task) (dmas : List (NvmDma × Bool)) : World :=
  dmas.foldl (fun w x => w.unmap current x.1 x.2) w

theorem unmaps_eq (w : World) (current : Task) (dmas : List (NvmDma × Bool)) :
    ∃ k log, w.unmaps current dmas = { w with k := k, log := log } := by
  induction dmas generalizing w with
  | nil => exact ⟨w.k, w.log, rfl⟩
  | cons x dmas ih => exact ih (w.unmap current x.1 x.2)

/-- How far a registration gets: it is refused, it gives back what it has mapped before the reset, or
it goes on from the reset with an admin queue pair. -/
inductive Registers (dev : Device) (P : Nat) (w : World) (r : RegCall) : OpError → World → Prop
  | refused {e : OpError} (he : e ≠ .SUCCESS) : Registers dev P w r e w
  | unmapped (k : KState) (dmas : List (NvmDma × Bool)) :
    Registers dev P w r .INTERNAL_ERROR ({ w.numbered r with k := k }.unmaps r.current dmas)
  | reset {ctrl : NvmCtrl} {k : KState} {aqDma : NvmDma} {pair : Qp} {e : OpError} {w' : World}
      (hinit : w.initialized = true) (hctrl : nvmCtrlInit r.alloc P r.cap = .ok ctrl)
      (hpair : createAdmin ctrl r.aq aqDma = some (.ok pair))
      (h : registerAq dev P { w.numbered r with k := k } r ⟨r.current, r.device, ctrl, w.nextId⟩
        aqDma pair = some (e, w')) :
    Registers dev P w r e w'

theorem registers_of_ctrl {dev : Device} {P : Nat} {w w' : World} {r : RegCall} {e : OpError}
    {ctrl : NvmCtrl} (hinit : w.initialized = true)
    (hctrl : nvmCtrlInit r.alloc P r.cap = .ok ctrl)
    (h : registerCtrl dev P (w.numbered r) r ⟨r.current, r.device, ctrl, w.nextId⟩ =
      some (e, w')) : Registers dev P w r e w' := by
  simp only [registerCtrl] at h
  split at h
  · cases h
    exact .unmapped w.k []
  split at h
  · cases h
    exact .unmapped _ []
  rename_i aqDma _
  split at h
  · cases h
  · rename_i copied _
    cases h
    cases copied with
    | false => exact .unmapped _ [(aqDma, true)]
    | true => exact .unmapped _ [(aqDma, false), (aqDma, true)]
  · rename_i pair hpair
    exact .reset hinit hctrl hpair h

theorem registers_of_call {dev : Device} {P : Nat} {w w' : World} {r : RegCall} {e : OpError}
    (h : w.handleRegister dev P r = some (e, w')) : Registers dev P w r e w' := by
  simp only [handleRegister] at h
  split at h
  · cases h
    exact .refused (by decide)
  split at h
  · cases h
    exact .refused (by decide)
  rename_i hinit
  split at h
  · cases h
    exact .refused (by decide)
  split at h
  · rename_i ctrl _ hctrl
    exact registers_of_ctrl (by simpa using hinit) hctrl h
  · cases h
    exact .refused (by decide)

/-! ## The other calls -/

/-- What `uGDSHandleDeregister` does on the device: the queue pairs are taken down, the last one
first, and then the admin queues. -/
def teardown (c : Ctx) (hs : HandleState) (s : Sess) : Sess :=
  let s := hs.qps.reverse.foldl (cleanupQp c) s
  match hs.aqDma with
  | none => s
  | some aqDma => closeAq c s aqDma

/-- `uGDSHandleDeregister`. -/
def handleDeregister (dev : Device) (P : Nat) (w : World) (current : Task) (h : Nat) :
    Option World :=
  match w.find h with
  | none => none
  | some hs =>
    let d := w.ctrlDev h
    let c : Ctx := ⟨w.devFor dev h, ⟨current, d, hs.ctrl, h⟩, P, w.pairsBut h⟩
    let s := teardown c hs (w.enter d hs.aq)
    some { w.leave d s with
      handles := w.handles.filter fun x => x.ctrlId ≠ h
      defaultCtrl := if w.defaultCtrl = some h then none else w.defaultCtrl
      freed := w.freed ++
        (⟨h, true, s.admin.pair⟩ :: hs.qps.map fun q => ⟨h, false, q.pair⟩) }

/-- `uGDSDriverOpen`. -/
def driverOpen (w : World) : OpError × World := (.SUCCESS, { w with initialized := true })

/-- `uGDSDriverClose`. -/
def driverClose (w : World) (current : Task) : OpError × World :=
  if !w.initialized then (.DRIVER_NOT_INITIALIZED, w)
  else
    let w := w.bufRegistry.foldl (fun w b => w.unmapBuf current b) w
    (.SUCCESS, { w with bufRegistry := [], defaultCtrl := none, initialized := false })

/-- What mapping GPU memory meets. -/
structure DeviceMapEnv where
  lib : DmaEnv
  gpu : GpuEnv
  copyIn : Bool
  copyOut : Bool

/-- `nvm_dma_map_device` through the controller of handle `hs`. -/
def mapDevice (P : Nat) (w : World) (env : DeviceMapEnv) (current : Task) (hs : HandleState)
    (devptr size : Nat) : KState × Except Errno NvmDma :=
  nvmDmaMapDevice P w.k env.lib env.gpu env.copyIn env.copyOut
    ⟨current, w.ctrlDev hs.ctrlId, hs.ctrl, hs.ctrlId⟩ devptr size

/-- `uGDSBufRegister`. -/
def bufRegister (P : Nat) (w : World) (env : DeviceMapEnv) (current : Task) (base length : Nat) :
    Option (OpError × World) :=
  if !w.initialized then some (.DRIVER_NOT_INITIALIZED, w)
  else if base = 0 ∨ length = 0 then some (.INVALID_VALUE, w)
  else if (w.findBuf base).isSome then some (.MEMORY_ALREADY_REGISTERED, w)
  else
    match w.defaultCtrl with
    | none => some (.DRIVER_NOT_INITIALIZED, w)
    | some id =>
      match w.find id with
      | none => none
      | some hs =>
        match w.mapDevice P env current hs base length with
        | (k, .error _) => some (.GPU_MEMORY_PINNING_FAILED, { w with k := k })
        | (k, .ok dma) =>
          some (.SUCCESS, { w with
            k := k
            bufRegistry := w.bufRegistry ++ [⟨base, w.nextBuf, dma⟩]
            nextBuf := w.nextBuf + 1 })

/-- A buffer is refused, and then the kernel was not asked or has refused it, or it is mapped through
the default controller and added under a new number. -/
theorem bufRegister_cases {P : Nat} {w w' : World} {env : DeviceMapEnv} {current : Task}
    {base length : Nat} {e : OpError}
    (h : w.bufRegister P env current base length = some (e, w')) :
    (e ≠ .SUCCESS ∧ ∃ k, w' = { w with k := k } ∧
        (k = w.k ∨ ∃ hs err, w.mapDevice P env current hs base length = (k, .error err))) ∨
      ∃ id hs k dma, e = .SUCCESS ∧ w.initialized = true ∧ w.findBuf base = none ∧
        w.defaultCtrl = some id ∧ w.find id = some hs ∧
        w.mapDevice P env current hs base length = (k, .ok dma) ∧
        w' = { w with
          k := k
          bufRegistry := w.bufRegistry ++ [⟨base, w.nextBuf, dma⟩]
          nextBuf := w.nextBuf + 1 } := by
  simp only [bufRegister] at h
  split at h
  · cases h
    exact .inl ⟨by decide, w.k, rfl, .inl rfl⟩
  rename_i hinit
  split at h
  · cases h
    exact .inl ⟨by decide, w.k, rfl, .inl rfl⟩
  split at h
  · cases h
    exact .inl ⟨by decide, w.k, rfl, .inl rfl⟩
  rename_i hnew
  split at h
  · cases h
    exact .inl ⟨by decide, w.k, rfl, .inl rfl⟩
  rename_i id hd
  split at h
  · cases h
  rename_i hs hf
  split at h
  · rename_i k err hm
    cases h
    exact .inl ⟨by decide, k, rfl, .inr ⟨hs, err, hm⟩⟩
  · rename_i k dma hm
    cases h
    exact .inr ⟨id, hs, k, dma, rfl, by simpa using hinit, by simpa using hnew, hd, hf, hm, rfl⟩

/-- `uGDSBufDeregister`. -/
def bufDeregister (w : World) (current : Task) (base : Nat) : OpError × World :=
  if !w.initialized then (.DRIVER_NOT_INITIALIZED, w)
  else
    match w.findBuf base with
    | none => (.MEMORY_NOT_REGISTERED, w)
    | some b =>
      let w := w.unmapBuf current b
      (.SUCCESS, { w with bufRegistry := w.bufRegistry.filter fun e => e.key ≠ base })

end World

/-- A command is outstanding on queue pair `i`. -/
def HandleState.busy (hs : HandleState) (i : Nat) : Bool :=
  match hs.qps[i]? with
  | none => false
  | some q => q.pair.sq.q.head ≠ q.pair.sq.q.tail

namespace World

/-- The call of `do_io` on handle `hs`. -/
def callIo (dev : Device) (P : Nat) (w : World) (env : DeviceMapEnv) (current : Task)
    (hs : HandleState) (a : IoArgs) : Option IoResult :=
  doIo (w.devFor dev hs.ctrlId) w.t hs (w.lookup a.base)
    (fun devptr size => (w.mapDevice P env current hs devptr size).2) a

/-- After a call of `do_io`. The kernel was asked for a mapping when the arguments were valid and
the buffer is not registered. -/
def afterIo (P : Nat) (w : World) (env : DeviceMapEnv) (current : Task) (hs : HandleState)
    (a : IoArgs) (r : IoResult) : World :=
  let k := if w.lookup a.base = none ∧ a.Valid hs then
      (w.mapDevice P env current hs (u64 (a.base + a.bufOffset.toNat)) a.size).1
    else w.k
  let w : World := { w with
    k := k
    t := r.t
    log := if r.used.isSome && r.hs.busy hs.qpIdx then w.log ++ [.timeout] else w.log }
  let w := w.setHandle r.hs
  match r.unmapped with
  | none => w
  | some dma => w.unmap current dma true

/-- `uGDSRead` and `uGDSWrite`. -/
def io (dev : Device) (P : Nat) (w : World) (env : DeviceMapEnv) (current : Task) (h : Nat)
    (a : IoArgs) : Option (Int × World) :=
  match w.find h with
  | none => none
  | some hs => (w.callIo dev P env current hs a).map fun r => (r.ret, w.afterIo P env current hs a r)

/-! ## The device between calls -/

/-- A queue pair. -/
inductive Which where
  | admin (h : Nat)
  | io (h i : Nat)
  | freed (n : Nat)

/-- The table of device `d` after the admin pair `p` has become `p'`. -/
def adminDone (w : World) (d : Nat) (p p' : Qp) : World :=
  { w with
    ctlr := Function.update w.ctlr d
      { w.ctlr d with table := (w.ctlr d).table.after ⟨w.t, p⟩ ⟨w.t, p'⟩ } }

def act (w : World) (acts : List DevAct) : Which → Option World
  | .admin h =>
    match w.find h with
    | none => none
    | some hs =>
      if !w.serves h then none
      else
        let p := acts.foldl Qp.devStep hs.aq
        some ((w.adminDone (w.ctrlDev h) hs.aq p).setHandle { hs with aq := p })
  | .io h i =>
    match w.find h with
    | none => none
    | some hs =>
      match hs.qps[i]? with
      | none => none
      | some q =>
        if !w.serves h then none
        else
          let q' := { q with pair := acts.foldl Qp.devStep q.pair }
          some (w.setHandle { hs with qps := hs.qps.set i q' })
  | .freed n =>
    match w.freed[n]? with
    | none => none
    | some f =>
      if !w.serves f.ctrlId then none
      else
        let p := acts.foldl Qp.devStep f.pair
        let w' := if f.admin then w.adminDone (w.ctrlDev f.ctrlId) f.pair p else w
        some { w' with freed := w.freed.set n { f with pair := p } }

/-- What the device does to each kind of queue pair. -/
inductive Acted (w : World) (acts : List DevAct) : Which → World → Prop
  | admin {h : Nat} {hs : HandleState} (hf : w.find h = some hs) (hserves : w.serves h = true) :
    Acted w acts (.admin h)
      ((w.adminDone (w.ctrlDev h) hs.aq (acts.foldl Qp.devStep hs.aq)).setHandle
        { hs with aq := acts.foldl Qp.devStep hs.aq })
  | io {h i : Nat} {hs : HandleState} {q : IOQueuePair} (hf : w.find h = some hs)
      (hq : hs.qps[i]? = some q) (hserves : w.serves h = true) :
    Acted w acts (.io h i)
      (w.setHandle
        { hs with qps := hs.qps.set i { q with pair := acts.foldl Qp.devStep q.pair } })
  | freed {n : Nat} {f : Freed} (hf : w.freed[n]? = some f) (hserves : w.serves f.ctrlId = true) :
    Acted w acts (.freed n)
      { (if f.admin then
          w.adminDone (w.ctrlDev f.ctrlId) f.pair (acts.foldl Qp.devStep f.pair) else w) with
        freed := w.freed.set n { f with pair := acts.foldl Qp.devStep f.pair } }

theorem acted_of_act {w w' : World} {acts : List DevAct} {which : Which}
    (h : w.act acts which = some w') : w.Acted acts which w' := by
  cases which with
  | admin id =>
    simp only [act] at h
    split at h
    · cases h
    rename_i hs hf
    split at h
    · cases h
    rename_i hserves
    cases h
    exact .admin hf (by simpa using hserves)
  | io id i =>
    simp only [act] at h
    split at h
    · cases h
    rename_i hs hf
    split at h
    · cases h
    rename_i q hq
    split at h
    · cases h
    rename_i hserves
    cases h
    exact .io hf hq (by simpa using hserves)
  | freed n =>
    simp only [act] at h
    split at h
    · cases h
    rename_i f hf
    split at h
    · cases h
    rename_i hserves
    cases h
    exact .freed hf (by simpa using hserves)

end World

/-- A step of the library or of a device. -/
inductive Label where
  | driverOpen
  | driverClose (current : Task)
  | handleRegister (r : RegCall)
  | handleDeregister (current : Task) (h : Nat)
  | bufRegister (env : World.DeviceMapEnv) (current : Task) (base length : Nat)
  | bufDeregister (current : Task) (base : Nat)
  | io (env : World.DeviceMapEnv) (current : Task) (h : Nat) (a : IoArgs)
  | device (acts : List DevAct) (which : World.Which)

/-- What a call gives back: nothing, a status, or the result of a transfer. -/
inductive Ret where
  | nothing
  | status (e : OpError)
  | bytes (n : Int)

/-- The call reports an error. -/
def Ret.Failed : Ret → Prop
  | .nothing => False
  | .status e => e ≠ .SUCCESS
  | .bytes n => n < 0

def World.call (dev : Device) (P : Nat) (w : World) : Label → Option (Ret × World)
  | .driverOpen => some (.status w.driverOpen.1, w.driverOpen.2)
  | .driverClose current => some (.status (w.driverClose current).1, (w.driverClose current).2)
  | .handleRegister r => (w.handleRegister dev P r).map fun x => (.status x.1, x.2)
  | .handleDeregister current h => (w.handleDeregister dev P current h).map fun x => (.nothing, x)
  | .bufRegister env current base length =>
    (w.bufRegister P env current base length).map fun x => (.status x.1, x.2)
  | .bufDeregister current base =>
    some (.status (w.bufDeregister current base).1, (w.bufDeregister current base).2)
  | .io env current h a => (w.io dev P env current h a).map fun x => (.bytes x.1, x.2)
  | .device acts which => (w.act acts which).map fun x => (.nothing, x)

def World.step (dev : Device) (P : Nat) (w : World) (l : Label) : Option World :=
  (w.call dev P l).map Prod.snd

/-! ## Calls that meet no failure

They are the concrete steps from which runs are built below. -/

def HostMapEnv.ok (nPages : Nat) : HostMapEnv where
  lib := ⟨true, true, true, true, true⟩
  host := ⟨true, true, .ok nPages, fun page => BitVec.ofNat 64 (4096 * page), fun _ => none⟩
  copyIn := true
  copyOut := true

def World.DeviceMapEnv.ok : World.DeviceMapEnv where
  lib := ⟨true, true, true, true, true⟩
  gpu := ⟨true, true, true, .ok, fun _ => .ok fun i => BitVec.ofNat 64 (0x80000000 + 65536 * i)⟩
  copyIn := true
  copyOut := true

def QpEnv.ok (i : Nat) : QpEnv where
  cqBuf := some (0x100000 + 0x10000 * i)
  cqMap := .ok 1
  sqBuf := some (0x104000 + 0x10000 * i)
  sqMap := .ok 1
  prpBuf := some (0x108000 + 0x10000 * i)
  prpMap := .ok 1

/-- A registration of device `d`, which gives one poll to each wait (`CAP.TO` is 0) and has blocks
of 512 bytes. -/
def RegCall.ok (d : Nat) : RegCall where
  current := ⟨0, 0⟩
  device := d
  fhNull := false
  descrNull := false
  opaqueFd := true
  fd := 3
  openErr := none
  alloc := true
  cap := 0x3ff#64
  aqBuf := some 0x10000
  aqMap := .ok 3
  aq := ⟨true, true, true, fun i => i % 2 = 1⟩
  mdts := 5
  lbads := 9
  qps := .ok

theorem onePage_lt : 4096 < 2 ^ 64 := by decide

theorem address_lt (base : BitVec 64) : base.toNat < 2 ^ 64 := base.isLt

/-- A read of one page into the buffer at `base`. -/
def IoArgs.page (base : BitVec 64) : IoArgs :=
  ⟨base.toNat, 4096, 0, 0, NVM_IO_READ, address_lt base, onePage_lt, zeroOffset_lt, zeroOffset_lt⟩

/-- A transfer on handle `h` with a controller that answers: the handle, the outcome and the DMA
handle used. -/
def World.tryIo (w : World) (P h : Nat) (a : IoArgs) :
    Option (HandleState × IoResult × NvmDma) :=
  (w.find h).bind fun hs => (w.callIo .prompt P .ok ⟨0, 0⟩ hs a).bind fun r =>
    r.used.map fun dma => (hs, r, dma)

theorem World.tryIo_some {w : World} {P h : Nat} {a : IoArgs} {hs : HandleState} {r : IoResult}
    {dma : NvmDma} (he : w.tryIo P h a = some (hs, r, dma)) :
    w.find h = some hs ∧ w.callIo .prompt P .ok ⟨0, 0⟩ hs a = some r ∧
      r.used = some dma := by
  obtain ⟨hs', hf, he⟩ := Option.bind_eq_some_iff.mp he
  obtain ⟨r', hr, he⟩ := Option.bind_eq_some_iff.mp he
  obtain ⟨dma', hu, he⟩ := Option.map_eq_some_iff.mp he
  cases he
  exact ⟨hf, hr, hu⟩

end UGDS
