import UGDS.Drv.Calls
import UGDS.Drv.Ioctl

/-!
# UGDS.Drv.Failed

What a map request leaves behind when `map_ioctl` returns an error.

Every failure inside the mapping functions is undone. After that the three commands differ: the
dma-buf command takes its mapping back when the addresses cannot be copied to the caller, the other
two return `-EFAULT` with the mapping in its list and its pages pinned and mapped.

* `dmabuf_calls_stack`: a dma-buf request holds one of each resource or nothing.
* `failed_map_exact`: which requests leave nothing behind.
* `failed_map_left`: a host request whose copy fails.
-/

namespace UGDS
namespace Drv

open Lib Nvm

/-- The module's state with the controllers that GPU memory is mapped for. -/
structure Kernel where
  k : KState
  ctrls : List Ctrl
  length_eq : ctrls.length = k.nCtrls

/-- The requests that map memory. -/
inductive MapRequest where
  | host (copyIn copyOut : Bool) (vaddr nPages : Nat) (env : HostEnv)
  | device (copyIn copyOut : Bool) (vaddr nPages : Nat) (env : GpuEnv)
  | dmabuf (copyIn copyOut : Bool) (req : DmabufReq) (env : DmabufEnv)

def MapRequest.toRequest : MapRequest → Request
  | .host copyIn copyOut vaddr nPages env => .mapHost copyIn copyOut vaddr nPages env
  | .device copyIn copyOut vaddr nPages env => .mapDevice copyIn copyOut vaddr nPages env
  | .dmabuf copyIn copyOut req env => .mapDmabuf copyIn copyOut req env

/-- The checks of `NVM_MAP_DMABUF_MEMORY`. -/
def DmabufReq.Rejected (P : Nat) (req : DmabufReq) : Prop :=
  (req.size = 0 ∨ req.size % P ≠ 0) ∨ (req.gpuPtr = 0 ∨ req.gpuPtr % P ≠ 0) ∨
    (req.ioaddrs = 0 ∨ req.capacity = 0) ∨ (req.offset ≠ 0 ∧ req.offset % P ≠ 0) ∨ req.fd < 0

instance (P : Nat) (req : DmabufReq) : Decidable (req.Rejected P) :=
  inferInstanceAs (Decidable (_ ∨ _ ∨ _ ∨ _ ∨ _))

/-- The calls of `NVM_MAP_DMABUF_MEMORY` after `map_dmabuf`. -/
def insertDmabufCalls (m : Map) (capacity : Nat) (invalid copyOut : Bool) : List (Op Res) :=
  if invalid then unmapAndReleaseCalls m true releaseDmabufMemoryCalls
  else if m.addrs.length > capacity then unmapAndReleaseCalls m true releaseDmabufMemoryCalls
  else if copyOut then []
  else unmapAndReleaseCalls m true releaseDmabufMemoryCalls

/-- The calls of `NVM_MAP_DMABUF_MEMORY`. -/
def dmabufCalls (P : Nat) (k : KState) (current : Task) (pdev : Nat) (copyIn copyOut : Bool)
    (req : DmabufReq) (env : DmabufEnv) : List (Op Res) :=
  if !copyIn then []
  else if req.Rejected P then []
  else
    let calls := mapDmabufCalls P env k.nextId current pdev req.gpuPtr req.offset (req.size / P)
      req.capacity
    match mapDmabuf P env k.nextId current pdev req.gpuPtr req.offset (req.size / P) req.capacity with
    | .error _ => calls
    | .ok m => calls ++ insertDmabufCalls m req.capacity env.invalid copyOut

/-- The calls of `map_ioctl` for a map request. -/
def mapIoctlCalls (P : Nat) (s : Kernel) (current : Task) (pdev : Nat) :
    MapRequest → Option (List (Op Res))
  | .host copyIn _ vaddr nPages env =>
    if !copyIn then some []
    else some (mapUserspaceCalls P env s.k.nextId current pdev vaddr nPages)
  | .device copyIn _ vaddr nPages env =>
    if !copyIn then some []
    else mapDeviceMemoryCalls env s.ctrls s.k.nextId current pdev vaddr nPages
  | .dmabuf copyIn copyOut req env => some (dmabufCalls P s.k current pdev copyIn copyOut req env)

/-! ## dma-buf requests -/

section Dmabuf

variable {P : Nat} {k : KState} {current : Task} {pdev : Nat} {copyOut : Bool} {req : DmabufReq}
  {env : DmabufEnv}

theorem mapIoctl_dmabuf_rejected (h : req.Rejected P) :
    k.mapIoctl P current pdev (.mapDmabuf true copyOut req env) = k.fail .EINVAL := by
  unfold DmabufReq.Rejected at h
  unfold KState.mapIoctl
  simp only [Bool.not_true, Bool.false_eq_true, if_false]
  split
  · rfl
  split
  · rfl
  split
  · rfl
  split
  · rfl
  split
  · rfl
  · omega

theorem mapIoctl_dmabuf_accepted (h : ¬ req.Rejected P) :
    k.mapIoctl P current pdev (.mapDmabuf true copyOut req env) =
      match mapDmabuf P env k.nextId current pdev req.gpuPtr req.offset (req.size / P)
          req.capacity with
      | .error e => k.fail e
      | .ok m => k.insertDmabuf m req.capacity env.invalid copyOut := by
  unfold DmabufReq.Rejected at h
  unfold KState.mapIoctl
  simp only [Bool.not_true, Bool.false_eq_true, if_false]
  split
  · omega
  split
  · omega
  split
  · omega
  split
  · omega
  split
  · omega
  · rfl

/-- After the request the mapping is in `device_list` and holds one of each resource, or the lists
are as before and nothing is held. -/
theorem dmabuf_calls_stack (copyIn : Bool) :
    let r := k.mapIoctl P current pdev (.mapDmabuf copyIn copyOut req env)
    let calls := dmabufCalls P k current pdev copyIn copyOut req env
    r.k.hostList = k.hostList ∧
      ((∃ m, m.release = some .dmabufMemory ∧ m.id = k.nextId ∧ r.err = none ∧
          r.k.deviceList = k.deviceList ++ [m] ∧ stack [] calls = some dmabufRes) ∨
        (∃ e, r.err = some e) ∧ r.k.deviceList = k.deviceList ∧ stack [] calls = some []) := by
  cases copyIn with
  | false => exact ⟨rfl, .inr ⟨⟨_, rfl⟩, rfl, rfl⟩⟩
  | true =>
    by_cases hrej : req.Rejected P
    · rw [mapIoctl_dmabuf_rejected hrej]
      simp only [dmabufCalls, Bool.not_true, Bool.false_eq_true, if_false, if_pos hrej]
      exact ⟨rfl, .inr ⟨⟨_, rfl⟩, rfl, rfl⟩⟩
    · rw [mapIoctl_dmabuf_accepted hrej]
      simp only [dmabufCalls, Bool.not_true, Bool.false_eq_true, if_false, if_neg hrej]
      cases hm : mapDmabuf P env k.nextId current pdev req.gpuPtr req.offset (req.size / P)
          req.capacity with
      | error e => exact ⟨rfl, .inr ⟨⟨e, rfl⟩, rfl, mapDmabufCalls_error hm⟩⟩
      | ok m =>
        obtain ⟨hst, hrel, hid⟩ := mapDmabufCalls_ok hm
        have hundo : unmapAndReleaseCalls m true releaseDmabufMemoryCalls =
            releaseDmabufMemoryCalls := by simp [unmapAndReleaseCalls, hrel]
        have hback : stack [] (mapDmabufCalls P env k.nextId current pdev req.gpuPtr req.offset
            (req.size / P) req.capacity ++ releaseDmabufMemoryCalls) = some [] := by
          rw [stack_append, hst, Option.bind_some, releaseDmabuf_stack]
        simp only [KState.insertDmabuf, insertDmabufCalls, hundo]
        split
        · exact ⟨rfl, .inr ⟨⟨_, rfl⟩, rfl, hback⟩⟩
        split
        · exact ⟨rfl, .inr ⟨⟨_, rfl⟩, rfl, hback⟩⟩
        split
        · refine ⟨rfl, .inl ⟨m, hrel, hid, rfl, rfl, ?_⟩⟩
          rw [List.append_nil]
          exact hst
        · exact ⟨rfl, .inr ⟨⟨_, rfl⟩, rfl, hback⟩⟩

end Dmabuf

/-! ## All map requests -/

/-- If `map_ioctl` fails, the lists are as before and nothing that the request has taken is held. -/
def LeavesNothing (P : Nat) (s : Kernel) (current : Task) (pdev : Nat) (req : MapRequest) : Prop :=
  let r := s.k.mapIoctl P current pdev req.toRequest
  ∃ calls, mapIoctlCalls P s current pdev req = some calls ∧ ∀ e, r.err = some e →
    r.k.hostList = s.k.hostList ∧ r.k.deviceList = s.k.deviceList ∧ held [] calls = []

/-- For host and GPU memory: if the mapping is made, its addresses can be copied to the caller. For
GPU memory also: the walks over the controllers stay inside `gd->mappings`. -/
def Undone (P : Nat) (s : Kernel) (current : Task) (pdev : Nat) : MapRequest → Prop
  | .host copyIn copyOut vaddr nPages env =>
    copyIn = true → (∃ m, mapUserspace P env s.k.nextId current pdev vaddr nPages = .ok m) →
      copyOut = true
  | .device copyIn copyOut vaddr nPages env =>
    copyIn = true → (env.Reaches nPages → env.InBounds s.ctrls) ∧
      ((∃ m, mapDeviceMemory env s.k.nCtrls s.k.nextId current pdev vaddr nPages = .ok m) →
        copyOut = true)
  | .dmabuf .. => True

theorem host_leavesNothing (P : Nat) (s : Kernel) (current : Task) (pdev : Nat)
    (copyIn copyOut : Bool) (vaddr nPages : Nat) (env : HostEnv) :
    LeavesNothing P s current pdev (.host copyIn copyOut vaddr nPages env) ↔
      Undone P s current pdev (.host copyIn copyOut vaddr nPages env) := by
  cases copyIn with
  | false => simp [LeavesNothing, Undone, mapIoctlCalls, MapRequest.toRequest, KState.mapIoctl,
      KState.fail, held]
  | true =>
    simp only [LeavesNothing, Undone, mapIoctlCalls, MapRequest.toRequest, KState.mapIoctl,
      Bool.not_true, Bool.false_eq_true, if_false, Option.some.injEq, exists_eq_left', true_implies]
    cases hm : mapUserspace P env s.k.nextId current pdev vaddr nPages with
    | error e => simp [KState.fail, mapUserspaceCalls_error hm]
    | ok m => cases copyOut <;> simp [KState.insertHost, KState.fail]

theorem device_leavesNothing (P : Nat) (s : Kernel) (current : Task) (pdev : Nat)
    (copyIn copyOut : Bool) (vaddr nPages : Nat) (env : GpuEnv) :
    LeavesNothing P s current pdev (.device copyIn copyOut vaddr nPages env) ↔
      Undone P s current pdev (.device copyIn copyOut vaddr nPages env) := by
  cases copyIn with
  | false => simp [LeavesNothing, Undone, mapIoctlCalls, MapRequest.toRequest, KState.mapIoctl,
      KState.fail, held]
  | true =>
    simp only [LeavesNothing, Undone, mapIoctlCalls, MapRequest.toRequest, KState.mapIoctl,
      Bool.not_true, Bool.false_eq_true, if_false, true_implies]
    have hspec := mapDeviceMemoryCalls_spec env s.ctrls s.k.nextId current pdev vaddr nPages
    rw [s.length_eq] at hspec
    rcases hspec with ⟨hout, hnone⟩ | ⟨hin, calls, hcalls, hheld⟩
    · simp [hnone, hout]
    · rw [and_iff_right hin]
      simp only [hcalls, Option.some.injEq, exists_eq_left']
      cases hm : mapDeviceMemory env s.k.nCtrls s.k.nextId current pdev vaddr nPages with
      | error e => simp [KState.fail, hheld e hm]
      | ok m => cases copyOut <;> simp [KState.insertDevice, KState.fail]

/-- For every map request, every state of the module and every answer of the kernel. -/
theorem failed_map_exact (P : Nat) (s : Kernel) (current : Task) (pdev : Nat) (req : MapRequest) :
    LeavesNothing P s current pdev req ↔ Undone P s current pdev req := by
  cases req with
  | host copyIn copyOut vaddr nPages env =>
    exact host_leavesNothing P s current pdev copyIn copyOut vaddr nPages env
  | device copyIn copyOut vaddr nPages env =>
    exact device_leavesNothing P s current pdev copyIn copyOut vaddr nPages env
  | dmabuf copyIn copyOut req env =>
    refine ⟨fun _ => trivial, fun _ => ⟨_, rfl, fun e he => ?_⟩⟩
    obtain ⟨hhost, ⟨m, -, -, hok, -⟩ | ⟨-, hdev, hst⟩⟩ :=
      @dmabuf_calls_stack P s.k current pdev copyOut req env copyIn
    · rw [MapRequest.toRequest, hok] at he
      cases he
    · exact ⟨hhost, hdev, held_of_stack hst⟩

/-- One page of host memory, pinned and mapped; the caller's array for the addresses cannot be
written. -/
theorem failed_map_left :
    ¬ ∀ (P : Nat) (s : Kernel) (current : Task) (pdev : Nat) (req : MapRequest),
      LeavesNothing P s current pdev req := by
  intro h
  let env : HostEnv := ⟨true, true, .ok 1, fun _ => 0x1000#64, fun _ => none⟩
  have := (host_leavesNothing 4096 ⟨.init 1, [⟨0, 0⟩], rfl⟩ ⟨1, 1⟩ 0 true false 0x10000 1 env).mp
    (h _ _ _ _ _) rfl ⟨_, rfl⟩
  cases this

end Drv
end UGDS
