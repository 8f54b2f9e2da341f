import UGDS.Drv.Failed
import UGDS.Lib.Account

/-!
# UGDS.Drv.Module

The kernel module from load to unload: `ugds_drv_entry`, the probes and removals of PCI devices,
`map_ioctl`, the NVIDIA driver's callback `force_release_gpu_memory`, and `ugds_drv_exit`.

The log holds the calls that take something from the rest of the kernel or give it back, each with
what has to be there when it is made: DMA addresses are made and taken back on a device that is
enabled, a character device is in a class and a region of device numbers, GPU pages are mapped while
the page table is held. Memory that the module allocates for its own use is not in the log, except
for `struct ctrl`, which the character device is part of.

* `Module.step`: one of these events. The order of them is free.
* `Module.held`: what the module should have, read off its lists.
-/

namespace UGDS
namespace Drv

open Lib Nvm

/-- What the module takes from the kernel. Nobody ever has `outside`: an access outside
`gd->mappings` is logged as a call that needs it. -/
inductive Resource where
  | chrdevRegion
  | devClass
  | pciDriver
  | ctrl (dev : Nat)
  | region (dev : Nat)
  | enabled (dev : Nat)
  | cdev (dev : Nat)
  | chrdev (dev : Nat)
  | master (dev : Nat)
  | mapped (id pdev : Nat) (r : Res)
  | outside
  deriving DecidableEq, Repr

namespace Resource

/-- What has to be there when the resource is taken or given back. -/
def needs : Resource → List Resource
  | .pciDriver => [.devClass, .chrdevRegion]
  | .ctrl _ => [.pciDriver]
  | .region _ => [.pciDriver]
  | .enabled _ => [.pciDriver]
  | .cdev dev => [.chrdevRegion, .ctrl dev]
  | .chrdev dev => [.devClass, .cdev dev]
  | .master dev => [.enabled dev]
  | .mapped id pdev (.p2pMapping dev _) => [.mapped id pdev .p2pPages, .enabled dev]
  | .mapped _ pdev (.dmaPage _ _) => [.enabled pdev]
  | .mapped _ pdev .attachment => [.enabled pdev]
  | .mapped _ pdev .pin => [.enabled pdev]
  | .mapped _ pdev .sgt => [.enabled pdev]
  | _ => []

def take (r : Resource) : Call Resource := ⟨r.needs, some (.acquire r)⟩

def give (r : Resource) : Call Resource := ⟨r.needs, some (.release r)⟩

/-- A call for the mapping `id`, which was made through the controller of `pdev`. -/
def call (id pdev : Nat) : Op Res → Call Resource
  | .acquire r => (mapped id pdev r).take
  | .release r => (mapped id pdev r).give

/-- The calls of a walk over the controllers. -/
def walkCalls (id pdev : Nat) : Option (List (Op Res)) → List (Call Resource)
  | none => [⟨[.outside], none⟩]
  | some ops => ops.map (call id pdev)

/-- What a controller in `ctrl_list` has. -/
def ofCtrl (dev : Nat) : List Resource :=
  [.master dev, .chrdev dev, .cdev dev, .enabled dev, .region dev, .ctrl dev]

/-- What a loaded module has without any controller. -/
def ofDriver : List Resource := [.pciDriver, .devClass, .chrdevRegion]

end Resource

open Resource

/-! ## Controllers -/

/-- `ctrl_put`; `chrdev` says that `ctrl->chrdev` is set. -/
def ctrlPutCalls (dev : Nat) (chrdev : Bool) : List (Call Resource) :=
  (if chrdev then [(Resource.chrdev dev).give, (Resource.cdev dev).give] else []) ++
    [(Resource.ctrl dev).give]

/-- `ctrl_chrdev_create`. `cdevAdd` says which call an error comes from: `cdev_add` has succeeded and
`device_create` has not, or `cdev_add` has failed. -/
def ctrlChrdevCreateCalls (dev : Nat) (err : Option Errno) (cdevAdd : Bool) : List (Call Resource) :=
  match err with
  | none => [(Resource.cdev dev).take, (Resource.chrdev dev).take]
  | some _ => if cdevAdd then [(Resource.cdev dev).take, (Resource.cdev dev).give] else []

/-- `add_pci_dev`. -/
def addPciDevCalls (max : BitVec 32) (s : CtrlState) (dev : Nat) (env : ProbeEnv) (cdevAdd : Bool) :
    List (Call Resource) :=
  if max.toInt ≤ s.currCtrls.toInt then []
  else if !env.ctrl then []
  else
    (Resource.ctrl dev).take ::
      match env.requestRegion, env.enableDevice, env.chrdevCreate with
      | some _, _, _ => ctrlPutCalls dev false
      | none, some _, _ =>
        [(region dev).take, (region dev).give] ++ ctrlPutCalls dev false
      | none, none, some e =>
        [(region dev).take, (enabled dev).take] ++ ctrlChrdevCreateCalls dev (some e) cdevAdd ++
          [(enabled dev).give, (region dev).give] ++ ctrlPutCalls dev false
      | none, none, none =>
        [(region dev).take, (enabled dev).take] ++ ctrlChrdevCreateCalls dev none cdevAdd ++
          [(master dev).take] ++
          if !env.mask64 && !env.mask32 then
            [(master dev).give, (enabled dev).give, (region dev).give] ++ ctrlPutCalls dev true
          else []

/-- `remove_pci_dev`. `ctrl_put` does nothing without a controller; the rest is done in any case. -/
def removePciDevCalls (s : CtrlState) (dev : Nat) : List (Call Resource) :=
  (match s.ctrlFindByPciDev dev with
    | some _ => ctrlPutCalls dev true
    | none => []) ++
    [(region dev).give, (master dev).give, (enabled dev).give]

/-! ## The module -/

/-- `gd id` are the mappings that `gd->mappings` of the GPU mapping `id` starts with. -/
structure Module where
  loaded : Bool
  c : CtrlState
  k : KState
  gd : Nat → List P2pMapping
  log : List (Call Resource)

/-- What a mapping in a list has. -/
def Map.resources (gd : Nat → List P2pMapping) (m : Map) : List Resource :=
  (match m.release with
    | none => []
    | some .userPages => m.addrs.map (Res.dmaPage m.pdev) ++ m.pages.map Res.userPage
    | some .gpuMemory => (gd m.id).map (fun x : P2pMapping => Res.p2pMapping x.pdev x) ++ [Res.p2pPages]
    | some .dmabufMemory => dmabufRes).map (mapped m.id m.pdev)

namespace Module

def init : Module := ⟨false, .init, .init 0, fun _ => [], []⟩

def driverHeld (t : Module) : List Resource := if t.loaded then ofDriver else []

/-- What the controllers of the module have. -/
def ctrlsHeld (t : Module) : List Resource := t.c.ctrlList.flatMap fun c => ofCtrl c.pdev

/-- What the mappings in the two lists have. -/
def mapsHeld (t : Module) : List Resource := t.k.all.flatMap (Map.resources t.gd)

/-- What the module has: its registrations, its controllers, and the mappings in its lists. -/
def held (t : Module) : List Resource := t.driverHeld ++ t.ctrlsHeld ++ t.mapsHeld

/-- The devices that a mapping uses. -/
def devices (t : Module) (m : Map) : List Nat :=
  match m.release with
  | none => []
  | some .gpuMemory => (t.gd m.id).map P2pMapping.pdev
  | some _ => [m.pdev]

/-- The release callback of a mapping, as `unmap_and_release` runs it. -/
def releaseCalls (t : Module) (m : Map) : List (Call Resource) :=
  match m.release with
  | none => []
  | some .userPages => walkCalls m.id m.pdev (some (releaseUserPagesCalls m))
  | some .gpuMemory =>
    walkCalls m.id m.pdev (releaseGpuMemoryCalls (filled (t.gd m.id)) true t.c.ctrlList)
  | some .dmabufMemory => walkCalls m.id m.pdev (some releaseDmabufMemoryCalls)

/-- `force_release_gpu_memory`: the walk of `release_gpu_memory`, with the page table freed, and
`unmap_and_release` with `map->data` cleared. -/
def forceReleaseGpuMemoryCalls (t : Module) (m : Map) : List (Call Resource) :=
  walkCalls m.id m.pdev ((releaseGpuMemoryCalls (filled (t.gd m.id)) true t.c.ctrlList).map fun calls =>
    calls ++ unmapAndReleaseCalls m false calls)

/-- A mapping is unlinked from the list that it is in. -/
def unlink (t : Module) (m : Map) (calls : List (Call Resource)) : Module :=
  { t with
    k := { t.k with
      hostList := listRemove t.k.hostList m
      deviceList := listRemove t.k.deviceList m
      released := t.k.released ++ [m] }
    log := t.log ++ calls }

/-- `unmap_and_release`. -/
def unmapAndRelease (t : Module) (m : Map) : Module := t.unlink m (t.releaseCalls m)

/-- The loop of `clear_map_list`, `n` more times at most. -/
def clearLoop (list : KState → List Map) : Nat → Module → Module
  | 0, t => t
  | n + 1, t =>
    match list t.k with
    | [] => t
    | m :: _ => clearLoop list n (t.unmapAndRelease m)

/-- `clear_map_list`. Each round removes a mapping. -/
def clearMapList (list : KState → List Map) (t : Module) : Module :=
  clearLoop list (list t.k).length t

/-- The calls of `map_ioctl` once it has found the controller. -/
def ioctlCalls (P : Nat) (t : Module) (c : Ioctl) : List (Call Resource) :=
  match c.req with
  | .mapHost copyIn _ vaddr nPages env =>
    if !copyIn then []
    else walkCalls t.k.nextId c.pdev
      (some (mapUserspaceCalls P env t.k.nextId c.current c.pdev vaddr nPages))
  | .mapDevice copyIn _ vaddr nPages env =>
    if !copyIn then []
    else walkCalls t.k.nextId c.pdev
      (mapDeviceMemoryCalls env t.c.ctrlList t.k.nextId c.current c.pdev vaddr nPages)
  | .mapDmabuf copyIn copyOut req env =>
    walkCalls t.k.nextId c.pdev (some (dmabufCalls P t.k c.current c.pdev copyIn copyOut req env))
  | .unmap copyIn addr =>
    if !copyIn then []
    else
      match mapFind t.k.hostList c.current addr with
      | some m => t.releaseCalls m
      | none =>
        match mapFind t.k.deviceList c.current addr with
        | some m => t.releaseCalls m
        | none => []

/-- `gd->mappings` of the mapping that a request makes. -/
def newGd (t : Module) (c : Ioctl) : Nat → List P2pMapping :=
  match c.req with
  | .mapDevice _ _ _ _ env => fun id =>
    if id = t.k.nextId then (created env t.c.ctrlList 0).1 else t.gd id
  | _ => t.gd

/-- `map_ioctl` on a file of the controller of `c.pdev`. Without a controller it returns `-EBADF`;
with one it uses the controller and its `cdev`. GPU memory is mapped for all controllers. -/
def mapIoctl (P : Nat) (t : Module) (c : Ioctl) : Module :=
  match t.c.ctrlFindByPciDev c.pdev with
  | none => t
  | some _ =>
    let k := { t.k with nCtrls := t.c.ctrlList.length }
    { t with
      k := (k.mapIoctl P c.current c.pdev c.req).k
      gd := t.newGd c
      log := t.log ++ ⟨[.cdev c.pdev, .ctrl c.pdev], none⟩ :: t.ioctlCalls P c }

/-- `ugds_drv_entry`: what `alloc_chrdev_region`, `class_create` and `pci_register_driver` answer. -/
def ugdsDrvEntry (t : Module) (alloc create register : Option Errno) : Module :=
  let k := { t.k with hostList := [], deviceList := [] }
  match alloc, create, register with
  | some _, _, _ => { t with c := .init, k := k }
  | none, some _, _ => { t with
      c := .init, k := k, log := t.log ++ [chrdevRegion.take, chrdevRegion.give] }
  | none, none, some _ => { t with
      c := .init
      k := k
      log := t.log ++ [chrdevRegion.take, devClass.take, devClass.give, chrdevRegion.give] }
  | none, none, none => { t with
      loaded := true
      c := .init
      k := k
      log := t.log ++ [chrdevRegion.take, devClass.take, pciDriver.take] }

/-- `remove_pci_dev`, called by the PCI core for a bound device. -/
def removePciDev (t : Module) (dev : Nat) : Module :=
  { t with
    c := { t.c.removePciDev dev with bound := t.c.bound.erase dev }
    log := t.log ++ removePciDevCalls t.c dev }

/-- `ugds_drv_exit`. `pci_unregister_driver` removes the devices that are bound. -/
def ugdsDrvExit (t : Module) : Module :=
  let t := clearMapList KState.deviceList t
  let t := clearMapList KState.hostList t
  let t := t.c.bound.foldl removePciDev t
  { t with
    loaded := false
    log := t.log ++ [pciDriver.give, devClass.give, chrdevRegion.give] }

inductive Label where
  | load (alloc create register : Option Errno)
  | probe (dev : Nat) (env : ProbeEnv) (cdevAdd : Bool)
  | remove (dev : Nat)
  | ioctl (c : Ioctl)
  | reclaim (id : Nat)
  | unload

/-- The NVIDIA driver takes back a page table that it has given out; the PCI core probes devices that
are not bound and removes bound ones. -/
def step (max : BitVec 32) (P : Nat) (t : Module) : Label → Option Module
  | .load alloc create register =>
    if t.loaded then none else some (t.ugdsDrvEntry alloc create register)
  | .probe dev env cdevAdd =>
    if !t.loaded then none
    else (t.c.step max (.probe dev env)).map fun c =>
      { t with c := c, log := t.log ++ addPciDevCalls max t.c dev env cdevAdd }
  | .remove dev => if t.loaded && dev ∈ t.c.bound then some (t.removePciDev dev) else none
  | .ioctl c => if !t.loaded then none else some (t.mapIoctl P c)
  | .reclaim id =>
    match t.k.deviceList.find? fun m => m.id = id ∧ m.release = some .gpuMemory with
    | some m => some (t.unlink m (t.forceReleaseGpuMemoryCalls m))
    | none => none
  | .unload => if t.loaded then some t.ugdsDrvExit else none

end Module

end Drv
end UGDS
