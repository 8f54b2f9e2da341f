import UGDS.Api.World
import UGDS.Lib.Monitor

/-!
# UGDS.Api.Driver

`g_driver` as concurrent callers see it: the functions of `ugds_driver.cpp`, `ugds_buf.cpp` and
`ugds_handle.cpp`, and the lookup of `do_io` (`ugds_io.cpp`), cut into steps at every access to the
shared state. All accesses are under `g_driver.lock` but two: the functions test `initialized` before
they take the lock, and `do_io` goes on using the handle that it has looked up after it has given the
lock back.

A handle of `uGDSBufRegister` is numbered by its place in `made`, the pointers that were mapped; a
controller by the order of `nvm_ctrl_init`. `made`, `unmapped`, `handles`, `nextCtrl` and `freed`
are records that no function reads. What the kernel and the controller answer is the argument of a
step.

* `Point`: where a call stands. `leave p` is the end of the scope of the `lock_guard`.
* `DriverCall.start`, `Point.next`: the program; `driverProgram` puts them together.
* `Point.takes_of_next`: its transitions, one by one.
-/

namespace UGDS

open Lib

/-- An entry of `buf_registry`. -/
structure Entry where
  key : Nat
  id : Nat
  deriving DecidableEq, Repr

structure DriverState where
  initialized : Bool
  defaultCtrl : Option Nat
  bufRegistry : List Entry
  made : List Nat
  unmapped : List Nat
  handles : List Nat
  nextCtrl : Nat
  freed : List Nat

namespace DriverState

def init : DriverState := ⟨false, none, [], [], [], [], 0, []⟩

def find (s : DriverState) (base : Nat) : Option Entry := s.bufRegistry.find? fun e => e.key = base

/-- `nvm_dma_unmap`. -/
def unmap (s : DriverState) (e : Entry) : DriverState := { s with unmapped := s.unmapped ++ [e.id] }

end DriverState

/-- Where a call stands. `done` has the status that is returned, if there is one. -/
inductive Point where
  -- `uGDSDriverOpen`
  | openLock
  | openSet
  -- `uGDSDriverClose`
  | closeLock
  | closeTest
  | closeUnmap (rest : List Entry)
  -- `uGDSBufRegister`
  | regTest (base length : Nat)
  | regLock (base : Nat)
  | regFind (base : Nat)
  | regMap (base ctrl : Nat)
  | regStore (base id : Nat)
  -- `uGDSBufDeregister`
  | deregTest (base : Nat)
  | deregLock (base : Nat)
  | deregFind (base : Nat)
  | deregErase (e : Entry)
  -- `uGDSHandleRegister`
  | handleTest (null opaqueFd : Bool)
  | handleInit
  | handleBuild (ctrl : Nat)
  | handleLock (ctrl : Nat)
  | handleDefault (ctrl : Nat)
  | handleReturn (ctrl : Nat)
  -- `uGDSHandleDeregister`
  | dropLock (ctrl : Nat)
  | dropDefault (ctrl : Nat)
  | dropFree (ctrl : Nat)
  -- `do_io`
  | ioLock (base : Nat)
  | ioFind (base : Nat)
  | ioUse (base : Nat) (id : Option Nat)
  -- all of them
  | leave (next : Point)
  | done (e : Option OpError)
  deriving DecidableEq

/-- A call, with the arguments that the steps below depend on. -/
inductive DriverCall where
  | driverOpen
  | driverClose
  | bufRegister (base length : Nat)
  | bufDeregister (base : Nat)
  | handleRegister (null opaqueFd : Bool)
  | handleDeregister (ctrl : Nat)
  | io (base : Nat)

/-- Where a call begins. A handle is deregistered by a caller that has it, and only once. -/
def DriverCall.start (s : DriverState) : DriverCall → Option (DriverState × Point)
  | .driverOpen => some (s, .openLock)
  | .driverClose => some (s, .closeLock)
  | .bufRegister base length => some (s, .regTest base length)
  | .bufDeregister base => some (s, .deregTest base)
  | .handleRegister null opaqueFd => some (s, .handleTest null opaqueFd)
  | .handleDeregister ctrl =>
    if ctrl ∈ s.handles then some ({ s with handles := s.handles.erase ctrl }, .dropLock ctrl)
    else none
  | .io base => some (s, .ioLock base)

namespace Point

/-- Return with a status. -/
def status (e : OpError) : Point := .done (some e)

/-- Is the lock held here? -/
def locked : Point → Bool
  | .openSet | .closeTest | .closeUnmap _ | .regFind _ | .regMap .. | .regStore .. | .deregFind _
  | .deregErase _ | .handleDefault _ | .dropDefault _ | .ioFind _ | .leave _ => true
  | _ => false

/-- The step from a point. `ok` is what the environment answers to `nvm_dma_map_device`, to
`nvm_ctrl_init`, and to the rest of the registration up to the lock. -/
def next (s : DriverState) (p : Point) (ok : Bool) : Option (DriverState × Point) :=
  match p with
  | .openLock => some (s, .openSet)
  | .openSet => some ({ s with initialized := true }, .leave (.status .SUCCESS))
  | .closeLock => some (s, .closeTest)
  | .closeTest =>
    if !s.initialized then some (s, .leave (.status .DRIVER_NOT_INITIALIZED))
    else some (s, .closeUnmap s.bufRegistry)
  | .closeUnmap (e :: rest) => some (s.unmap e, .closeUnmap rest)
  | .closeUnmap [] =>
    some ({ s with bufRegistry := [], defaultCtrl := none, initialized := false },
      .leave (.status .SUCCESS))
  | .regTest base length =>
    if !s.initialized then some (s, .status .DRIVER_NOT_INITIALIZED)
    else if base = 0 ∨ length = 0 then some (s, .status .INVALID_VALUE)
    else some (s, .regLock base)
  | .regLock base => some (s, .regFind base)
  | .regFind base =>
    if (s.find base).isSome then some (s, .leave (.status .MEMORY_ALREADY_REGISTERED))
    else
      match s.defaultCtrl with
      | none => some (s, .leave (.status .DRIVER_NOT_INITIALIZED))
      | some ctrl => some (s, .regMap base ctrl)
  | .regMap base _ =>
    if ok then some ({ s with made := s.made ++ [base] }, .regStore base s.made.length)
    else some (s, .leave (.status .GPU_MEMORY_PINNING_FAILED))
  | .regStore base id =>
    some ({ s with bufRegistry := s.bufRegistry ++ [⟨base, id⟩] }, .leave (.status .SUCCESS))
  | .deregTest base =>
    if !s.initialized then some (s, .status .DRIVER_NOT_INITIALIZED) else some (s, .deregLock base)
  | .deregLock base => some (s, .deregFind base)
  | .deregFind base =>
    match s.find base with
    | none => some (s, .leave (.status .MEMORY_NOT_REGISTERED))
    | some e => some (s.unmap e, .deregErase e)
  | .deregErase e =>
    some ({ s with bufRegistry := s.bufRegistry.filter fun x => x.key ≠ e.key },
      .leave (.status .SUCCESS))
  | .handleTest null opaqueFd =>
    if null then some (s, .status .INVALID_VALUE)
    else if !s.initialized then some (s, .status .DRIVER_NOT_INITIALIZED)
    else if !opaqueFd then some (s, .status .INVALID_FILE_TYPE)
    else some (s, .handleInit)
  | .handleInit =>
    if ok then some ({ s with nextCtrl := s.nextCtrl + 1 }, .handleBuild s.nextCtrl)
    else some (s, .status .INTERNAL_ERROR)
  | .handleBuild ctrl =>
    if ok then some (s, .handleLock ctrl)
    else some ({ s with freed := s.freed ++ [ctrl] }, .status .INTERNAL_ERROR)
  | .handleLock ctrl => some (s, .handleDefault ctrl)
  | .handleDefault ctrl =>
    some ({ s with defaultCtrl := if s.defaultCtrl = none then some ctrl else s.defaultCtrl },
      .leave (.handleReturn ctrl))
  | .handleReturn ctrl => some ({ s with handles := s.handles ++ [ctrl] }, .status .SUCCESS)
  | .dropLock ctrl => some (s, .dropDefault ctrl)
  | .dropDefault ctrl =>
    some ({ s with defaultCtrl := if s.defaultCtrl = some ctrl then none else s.defaultCtrl },
      .leave (.dropFree ctrl))
  | .dropFree ctrl => some ({ s with freed := s.freed ++ [ctrl] }, .done none)
  | .ioLock base => some (s, .ioFind base)
  | .ioFind base => some (s, .leave (.ioUse base ((s.find base).map Entry.id)))
  | .ioUse .. => some (s, .done none)
  | .leave next => some (s, next)
  | .done _ => none

/-- The transitions of the program. -/
inductive Takes (s : DriverState) : Point → DriverState → Point → Prop where
  | openLock : Takes s .openLock s .openSet
  | openSet : Takes s .openSet { s with initialized := true } (.leave (.status .SUCCESS))
  | closeLock : Takes s .closeLock s .closeTest
  | closeRefused : Takes s .closeTest s (.leave (.status .DRIVER_NOT_INITIALIZED))
  | closeTest : Takes s .closeTest s (.closeUnmap s.bufRegistry)
  | closeUnmap {e : Entry} {rest : List Entry} :
    Takes s (.closeUnmap (e :: rest)) (s.unmap e) (.closeUnmap rest)
  | closeClear : Takes s (.closeUnmap [])
    { s with bufRegistry := [], defaultCtrl := none, initialized := false }
    (.leave (.status .SUCCESS))
  | regRefused {base length : Nat} (e : OpError) : Takes s (.regTest base length) s (.status e)
  | regTest {base length : Nat} : Takes s (.regTest base length) s (.regLock base)
  | regLock {base : Nat} : Takes s (.regLock base) s (.regFind base)
  | regFound {base : Nat} (e : OpError) : Takes s (.regFind base) s (.leave (.status e))
  | regFind {base ctrl : Nat} (hf : s.find base = none) (hc : s.defaultCtrl = some ctrl) :
    Takes s (.regFind base) s (.regMap base ctrl)
  | regMap {base ctrl : Nat} : Takes s (.regMap base ctrl) { s with made := s.made ++ [base] }
    (.regStore base s.made.length)
  | regFailed {base ctrl : Nat} :
    Takes s (.regMap base ctrl) s (.leave (.status .GPU_MEMORY_PINNING_FAILED))
  | regStore {base id : Nat} : Takes s (.regStore base id)
    { s with bufRegistry := s.bufRegistry ++ [⟨base, id⟩] } (.leave (.status .SUCCESS))
  | deregRefused {base : Nat} (e : OpError) : Takes s (.deregTest base) s (.status e)
  | deregTest {base : Nat} : Takes s (.deregTest base) s (.deregLock base)
  | deregLock {base : Nat} : Takes s (.deregLock base) s (.deregFind base)
  | deregMissing {base : Nat} (hf : s.find base = none) :
    Takes s (.deregFind base) s (.leave (.status .MEMORY_NOT_REGISTERED))
  | deregFind {base : Nat} {e : Entry} (hf : s.find base = some e) :
    Takes s (.deregFind base) (s.unmap e) (.deregErase e)
  | deregErase {e : Entry} : Takes s (.deregErase e)
    { s with bufRegistry := s.bufRegistry.filter fun x => x.key ≠ e.key } (.leave (.status .SUCCESS))
  | handleRefused {null opaqueFd : Bool} (e : OpError) : Takes s (.handleTest null opaqueFd) s (.status e)
  | handleTest {null opaqueFd : Bool} (hi : s.initialized = true) :
    Takes s (.handleTest null opaqueFd) s .handleInit
  | handleInit : Takes s .handleInit { s with nextCtrl := s.nextCtrl + 1 } (.handleBuild s.nextCtrl)
  | handleFailed : Takes s .handleInit s (.status .INTERNAL_ERROR)
  | handleBuild {ctrl : Nat} : Takes s (.handleBuild ctrl) s (.handleLock ctrl)
  | handleUndone {ctrl : Nat} :
    Takes s (.handleBuild ctrl) { s with freed := s.freed ++ [ctrl] } (.status .INTERNAL_ERROR)
  | handleLock {ctrl : Nat} : Takes s (.handleLock ctrl) s (.handleDefault ctrl)
  | handleDefault {ctrl : Nat} : Takes s (.handleDefault ctrl)
    { s with defaultCtrl := if s.defaultCtrl = none then some ctrl else s.defaultCtrl }
    (.leave (.handleReturn ctrl))
  | handleReturn {ctrl : Nat} :
    Takes s (.handleReturn ctrl) { s with handles := s.handles ++ [ctrl] } (.status .SUCCESS)
  | dropLock {ctrl : Nat} : Takes s (.dropLock ctrl) s (.dropDefault ctrl)
  | dropDefault {ctrl : Nat} : Takes s (.dropDefault ctrl)
    { s with defaultCtrl := if s.defaultCtrl = some ctrl then none else s.defaultCtrl }
    (.leave (.dropFree ctrl))
  | dropFree {ctrl : Nat} : Takes s (.dropFree ctrl) { s with freed := s.freed ++ [ctrl] } (.done none)
  | ioLock {base : Nat} : Takes s (.ioLock base) s (.ioFind base)
  | ioFind {base : Nat} :
    Takes s (.ioFind base) s (.leave (.ioUse base ((s.find base).map Entry.id)))
  | ioUse {base : Nat} {id : Option Nat} : Takes s (.ioUse base id) s (.done none)
  | leave {p : Point} : Takes s (.leave p) s p

theorem takes_of_next {s s' : DriverState} {p q : Point} {ok : Bool}
    (h : p.next s ok = some (s', q)) : Takes s p s' q := by
  cases p with
  | closeTest =>
    simp only [next] at h
    split_ifs at h <;> cases h
    · exact .closeRefused
    · exact .closeTest
  | closeUnmap rest =>
    cases rest <;> cases h
    · exact .closeClear
    · exact .closeUnmap
  | regTest base length =>
    simp only [next] at h
    split_ifs at h <;> cases h
    · exact .regRefused _
    · exact .regRefused _
    · exact .regTest
  | regFind base =>
    simp only [next] at h
    split_ifs at h with hf
    · cases h
      exact .regFound _
    split at h <;> cases h
    · exact .regFound _
    · rename_i hc
      exact .regFind (by simpa using hf) hc
  | regMap base ctrl =>
    simp only [next] at h
    split_ifs at h <;> cases h
    · exact .regMap
    · exact .regFailed
  | deregTest base =>
    simp only [next] at h
    split_ifs at h <;> cases h
    · exact .deregRefused _
    · exact .deregTest
  | deregFind base =>
    simp only [next] at h
    split at h <;> cases h
    · rename_i hf
      exact .deregMissing hf
    · rename_i hf
      exact .deregFind hf
  | handleTest null opaqueFd =>
    simp only [next] at h
    split_ifs at h with _ hi <;> cases h
    · exact .handleRefused _
    · exact .handleRefused _
    · exact .handleRefused _
    · exact .handleTest (by simpa using hi)
  | handleInit =>
    simp only [next] at h
    split_ifs at h <;> cases h
    · exact .handleInit
    · exact .handleFailed
  | handleBuild ctrl =>
    simp only [next] at h
    split_ifs at h <;> cases h
    · exact .handleBuild
    · exact .handleUndone
  | done e => cases h
  | _ =>
    cases h
    constructor

end Point

def driverProgram : Program DriverState Point Bool DriverCall := ⟨DriverCall.start, Point.next, Point.locked⟩

/-- `g_driver` with its callers. -/
abbrev Driver : Type := Monitor DriverState Point

abbrev Driver.Move : Type := Monitor.Move Bool DriverCall

def Driver.step : Driver → Driver.Move → Option Driver := Monitor.step driverProgram

def Driver.init : Driver := Monitor.init DriverState.init

end UGDS
