import UGDS.Lib.RefTable
import UGDS.Lib.Steps
import UGDS.Nvm.Types

/-!
# UGDS.Nvm.Refs

The two levels of reference counting in libnvm (`dma.cpp`, `ctrl.cpp`, `rpc.cpp`): DMA handles hold
references to mapping descriptors, and mapping descriptors, admin references and the caller hold
references to controllers. An admin reference holds a handle of its own on the queue memory.

`Refs` holds the controllers and mapping descriptors that exist, with their 32-bit counters, and what
the caller has: handles, admin references, and controllers that it has not freed. `events` records
the calls of `map_range`, `unmap_range` and `release_device`. Allocations and `map_range` succeed or
fail as the environment says. `none` is a use after free or a call that breaks the caller's side of
the contract: it uses only controllers that exist and releases only what it has.

The pieces are those of the source, each under its own name; `Refs.step` puts the calls together.
-/

namespace UGDS
namespace Nvm
namespace Refs

open Lib RefTable

/-- What a mapping descriptor holds besides its counter; `mapped` says that `unmap` is set. -/
structure MapVal where
  ctrl : Nat
  mapped : Bool

/-- A live DMA handle, and the descriptor it is on. -/
structure Handle where
  id : Nat
  map : Nat

/-- A live admin reference: its controller, and the descriptor of its queue memory. -/
structure AqRef where
  id : Nat
  ctrl : Nat
  qmem : Nat

inductive Ev where
  | openDevice (ctrl : Nat)
  | mapRange (map : Nat)
  | unmapRange (map ctrl : Nat)
  | releaseDevice (ctrl : Nat)

end Refs

open Lib RefTable

structure Refs where
  ctrls : List (Counted Unit)
  maps : List (Counted Refs.MapVal)
  handles : List Refs.Handle
  refs : List Refs.AqRef
  /-- The controllers that `nvm_ctrl_free` has not been called for. -/
  owned : List Nat
  /-- The next number for an object. -/
  next : Nat
  events : List Refs.Ev

namespace Refs

def init : Refs := ⟨[], [], [], [], [], 0, []⟩

/-! ## Controllers -/

/-- `_nvm_ctrl_get`. -/
def ctrlGet (s : Refs) (c : Nat) : Option Refs :=
  (get 32 s.ctrls c).map fun t => { s with ctrls := t }

/-- `_nvm_ctrl_put`. -/
def ctrlPut (s : Refs) (c : Nat) : Option Refs :=
  (put 32 s.ctrls c).map fun x =>
    { s with
      ctrls := x.1
      events := if x.2.isSome then s.events ++ [.releaseDevice c] else s.events }

/-- `nvm_ctrl_init`, succeeding. -/
def nvmCtrlInit (s : Refs) : Refs :=
  { s with
    ctrls := s.ctrls ++ [⟨s.next, 1, ()⟩]
    owned := s.next :: s.owned
    next := s.next + 1
    events := s.events ++ [.openDevice s.next] }

/-- `nvm_ctrl_free`. -/
def nvmCtrlFree (s : Refs) (c : Nat) : Option Refs :=
  ctrlPut { s with owned := s.owned.erase c } c

/-! ## Mapping descriptors -/

/-- What making a handle meets: the descriptor of the address range, the lock of the controller (or,
in `get_map`, of the mapping descriptor), the mapping descriptor and its lock, the check and the
allocation of `create_container`, the address list and `map_range`. -/
structure MapEnv where
  range : Option Errno
  ctrlLock : Bool
  mapLock : Option Errno
  map : Bool
  lock : Option Errno
  aligned : Bool
  container : Bool
  addrList : Bool
  mapRange : Option Errno

/-- A mapping descriptor on controller `c`, with a reference count of 1 and no `unmap`. -/
def newMap (s : Refs) (c : Nat) : Refs :=
  { s with maps := s.maps ++ [⟨s.next, 1, ⟨c, false⟩⟩], next := s.next + 1 }

/-- `create_map`. -/
def createMap (s : Refs) (c : Nat) (env : MapEnv) : Option (Except Errno Nat × Refs) :=
  match ctrlGet s c with
  | none => none
  | some s' =>
    if !env.ctrlLock then some (.error .ENOSPC, s)
    else if !env.map then (ctrlPut s' c).map fun s => (.error .ENOMEM, s)
    else
      match env.lock with
      | some e => (ctrlPut s' c).map fun s => (.error e, s)
      | none => some (.ok s'.next, s'.newMap c)

/-- `remove_map` of descriptor `m` on controller `c`. -/
def removeMap (s : Refs) (m c : Nat) : Option Refs :=
  (ctrlPut s c).map fun s => { s with maps := drop s.maps m }

/-- The outcome of `create_container`. -/
def createContainer (env : MapEnv) : Option Errno :=
  if !env.aligned then some .EINVAL else if !env.container then some .ENOMEM else none

/-- The outcome of `dma_map`. -/
def dmaMap (env : MapEnv) : Option Errno :=
  if !env.addrList then some .ENOMEM else env.mapRange

/-- The handle of the container that was made for descriptor `m`. -/
def addHandle (s : Refs) (m : Nat) : Refs :=
  { s with handles := s.handles ++ [⟨s.next, m⟩], next := s.next + 1 }

/-- `md->unmap = ops.unmap_range`, after `map_range` has succeeded. -/
def setUnmap (s : Refs) (m : Nat) : Refs :=
  { s with
    maps := s.maps.map fun e => if e.id = m then { e with val := { e.val with mapped := true } } else e
    events := s.events ++ [.mapRange m] }

/-- `_nvm_dma_init`: the error, if any. -/
def nvmDmaInit (s : Refs) (c : Nat) (env : MapEnv) : Option (Option Errno × Refs) :=
  match createMap s c env with
  | none => none
  | some (.error e, s) => some (some e, s)
  | some (.ok m, s) =>
    match createContainer env with
    | some e => (removeMap s m c).map fun s => (some e, s)
    | none =>
      match dmaMap env with
      | some e => (removeMap s m c).map fun s => (some e, s)
      | none => some (none, (setUnmap s m).addHandle m)

/-- `nvm_dma_map_host` and `nvm_dma_map_device`. -/
def nvmDmaMapRange (s : Refs) (c : Nat) (env : MapEnv) : Option (Option Errno × Refs) :=
  match env.range with
  | some e => some (some e, s)
  | none => nvmDmaInit s c env

/-- `nvm_dma_map`: nothing is mapped, the caller has the addresses. -/
def nvmDmaMap (s : Refs) (c : Nat) (env : MapEnv) : Option (Option Errno × Refs) :=
  match env.range with
  | some e => some (some e, s)
  | none =>
    match createMap s c env with
    | none => none
    | some (.error e, s) => some (some e, s)
    | some (.ok m, s) =>
      match createContainer env with
      | some e => (removeMap s m c).map fun s => (some e, s)
      | none => some (none, s.addHandle m)

/-- `get_map`. -/
def getMap (s : Refs) (m : Nat) : Option Refs :=
  (get 32 s.maps m).map fun t => { s with maps := t }

/-- `put_map`. -/
def putMap (s : Refs) (m : Nat) : Option Refs :=
  match put 32 s.maps m with
  | none => none
  | some (t, none) => some { s with maps := t }
  | some (t, some v) =>
    ctrlPut
      { s with
        maps := t
        events := if v.mapped then s.events ++ [.unmapRange m v.ctrl] else s.events } v.ctrl

/-- The caller's handle `h`. -/
def findHandle (s : Refs) (h : Nat) : Option Handle := s.handles.find? fun x => x.id = h

/-- The part of `nvm_dma_remap` before the new handle exists. -/
def remap (s : Refs) (m : Nat) (env : MapEnv) : Option (Option Errno × Refs) :=
  match getMap s m with
  | none => none
  | some s' =>
    match env.mapLock with
    | some e => some (some e, s)
    | none =>
      match createContainer env with
      | some e => (putMap s' m).map fun s => (some e, s)
      | none => some (none, s')

/-- `nvm_dma_remap`. -/
def nvmDmaRemap (s : Refs) (other : Nat) (env : MapEnv) : Option (Option Errno × Refs) :=
  match findHandle s other with
  | none => none
  | some o =>
    match remap s o.map env with
    | none => none
    | some (some e, s) => some (some e, s)
    | some (none, s) => some (none, s.addHandle o.map)

/-- `nvm_dma_unmap`. -/
def nvmDmaUnmap (s : Refs) (h : Nat) : Option Refs :=
  match findHandle s h with
  | none => none
  | some x => putMap { s with handles := s.handles.filter fun y => y.id ≠ h } x.map

/-! ## Admin references -/

/-- What `nvm_aq_create` meets: the lock of the controller, the allocation and the lock of the
reference, the checks of `create_admin`, the copy of the handle and the descriptor. -/
structure AqEnv where
  ctrlLock : Bool
  ref : Bool
  lock : Option Errno
  window : Option Errno
  copy : MapEnv
  admin : Bool

/-- `_nvm_ref_get`. -/
def refGet (s : Refs) (c : Nat) (env : AqEnv) : Option (Option Errno × Refs) :=
  match ctrlGet s c with
  | none => none
  | some s' =>
    if !env.ctrlLock then some (some .ENOTTY, s)
    else if !env.ref then (ctrlPut s' c).map fun s => (some .ENOMEM, s)
    else
      match env.lock with
      | some e => (ctrlPut s' c).map fun s => (some e, s)
      | none => some (none, s')

/-- `create_admin` with a window on descriptor `m`; on success it holds a handle on `m`. -/
def createAdmin (s : Refs) (m : Nat) (env : AqEnv) : Option (Option Errno × Refs) :=
  match env.window with
  | some e => some (some e, s)
  | none =>
    match remap s m env.copy with
    | none => none
    | some (some e, s) => some (some e, s)
    | some (none, s) =>
      if !env.admin then (putMap s m).map fun s => (some .ENOMEM, s) else some (none, s)

/-- `nvm_aq_create`. When `create_admin` fails, `release` is not set yet and `_nvm_ref_put` gives back
the controller only. -/
def nvmAqCreate (s : Refs) (c window : Nat) (env : AqEnv) : Option (Option Errno × Refs) :=
  match findHandle s window with
  | none => none
  | some x =>
    match refGet s c env with
    | none => none
    | some (some e, s) => some (some e, s)
    | some (none, s) =>
      match createAdmin s x.map env with
      | none => none
      | some (some e, s) => (ctrlPut s c).map fun s => (some e, s)
      | some (none, s) =>
        some (none, { s with refs := s.refs ++ [⟨s.next, c, x.map⟩], next := s.next + 1 })

/-- `nvm_aq_destroy`: `_nvm_ref_put` with `remove_admin` as the release callback. -/
def nvmAqDestroy (s : Refs) (r : Nat) : Option Refs :=
  match s.refs.find? fun x => x.id = r with
  | none => none
  | some x =>
    (putMap { s with refs := s.refs.filter fun y => y.id ≠ r } x.qmem).bind fun s => ctrlPut s x.ctrl

/-! ## Runs -/

inductive Label where
  | ctrlInit
  | mapRange (c : Nat) (env : MapEnv)
  | map (c : Nat) (env : MapEnv)
  | remap (h : Nat) (env : MapEnv)
  | unmap (h : Nat)
  | aqCreate (c window : Nat) (env : AqEnv)
  | aqDestroy (r : Nat)
  | ctrlFree (c : Nat)

/-- One call. The caller frees a controller once. -/
def step (s : Refs) : Label → Option Refs
  | .ctrlInit => some s.nvmCtrlInit
  | .mapRange c env => (s.nvmDmaMapRange c env).map Prod.snd
  | .map c env => (s.nvmDmaMap c env).map Prod.snd
  | .remap h env => (s.nvmDmaRemap h env).map Prod.snd
  | .unmap h => s.nvmDmaUnmap h
  | .aqCreate c window env => (s.nvmAqCreate c window env).map Prod.snd
  | .aqDestroy r => s.nvmAqDestroy r
  | .ctrlFree c => if c ∈ s.owned then s.nvmCtrlFree c else none

end Refs

end Nvm
end UGDS
