import UGDS.Drv.Map
import UGDS.Lib.Steps

/-!
# UGDS.Drv.Ioctl

`map_ioctl` on the module's two lists, and what `NVM_UNMAP_MEMORY` removes.

`map_find` takes the first mapping of `current` whose start is the given address rounded with the
mapping's own page size, in `host_list` and then in `device_list`. It compares neither the process
nor the controller nor the pointer that was mapped, so another mapping may be found, or none.

* `KState.run_inv`: in every reachable state a mapping matches the pointer it was made for.
* `unmap_exact`: an unmap removes the mapping that was made for its address exactly when the
  same thread made it and no other mapping of that thread that matches comes first.
* `unmap_aliases`: two pointers in one 64 KiB GPU page.
-/

namespace UGDS
namespace Drv

open Lib

/-- The module's state: the two lists, oldest mapping first, the controllers in `ctrl_list`, and
the mappings that `unmap_and_release` was called on. -/
structure KState where
  hostList : List Map
  deviceList : List Map
  nCtrls : Nat
  nextId : Nat
  released : List Map
  deriving Repr

namespace KState

/-- All mappings in the order in which an unmap looks at them. -/
def all (k : KState) : List Map := k.hostList ++ k.deviceList

end KState

/-- The test of `map_find`. -/
def Map.matchesAddr (current : Task) (vaddr : Nat) (m : Map) : Bool :=
  m.owner = current && decide (0 < m.pageSize) && m.vaddr = mask 64 vaddr m.pageSize

/-- `map_find`. -/
def mapFind (list : List Map) (current : Task) (vaddr : Nat) : Option Map :=
  list.find? (Map.matchesAddr current vaddr)

/-- `list_remove`: unlink the node of `m`. -/
def listRemove (list : List Map) (m : Map) : List Map := list.filter fun x => x.id ≠ m.id

/-- A request, with what the kernel around the module answers. The booleans are `copy_from_user`
and `copy_to_user`. -/
inductive Request where
  | mapHost (copyIn copyOut : Bool) (vaddr nPages : Nat) (env : HostEnv)
  | mapDevice (copyIn copyOut : Bool) (vaddr nPages : Nat) (env : GpuEnv)
  | mapDmabuf (copyIn copyOut : Bool) (req : DmabufReq) (env : DmabufEnv)
  | unmap (copyIn : Bool) (addr : Nat)

/-- The outcome of an ioctl: the new state, the error if there is one, and the addresses copied to
the caller. -/
structure Outcome where
  k : KState
  err : Option Errno
  out : List (BitVec 64)

namespace KState

def fail (k : KState) (e : Errno) : Outcome := ⟨k, some e, []⟩

/-- `list_insert(&host_list, ..)` and the copy of the addresses. A copy that fails leaves the
mapping in its list. -/
def insertHost (k : KState) (m : Map) (copyOut : Bool) : Outcome :=
  let k := { k with hostList := k.hostList ++ [m], nextId := k.nextId + 1 }
  if copyOut then ⟨k, none, m.addrs⟩ else k.fail .EFAULT

def insertDevice (k : KState) (m : Map) (copyOut : Bool) : Outcome :=
  let k := { k with deviceList := k.deviceList ++ [m], nextId := k.nextId + 1 }
  if copyOut then ⟨k, none, m.addrs⟩ else k.fail .EFAULT

/-- The dma-buf case after `map_dmabuf`: it takes the mapping back on every error. -/
def insertDmabuf (k : KState) (m : Map) (capacity : Nat) (invalid copyOut : Bool) : Outcome :=
  let undone := { k with nextId := k.nextId + 1, released := k.released ++ [m] }
  if invalid then undone.fail Errno.EIO
  else if m.addrs.length > capacity then undone.fail .EOVERFLOW
  else if copyOut then
    ⟨{ k with deviceList := k.deviceList ++ [m], nextId := k.nextId + 1 }, none, m.addrs⟩
  else undone.fail .EFAULT

/-- `NVM_UNMAP_MEMORY`. -/
def unmap (k : KState) (current : Task) (addr : Nat) : Outcome :=
  match mapFind k.hostList current addr with
  | some m =>
    ⟨{ k with hostList := listRemove k.hostList m, released := k.released ++ [m] }, none, []⟩
  | none =>
    match mapFind k.deviceList current addr with
    | some m =>
      ⟨{ k with deviceList := listRemove k.deviceList m, released := k.released ++ [m] }, none, []⟩
    | none => k.fail .EINVAL

/-- `map_ioctl`, issued by `current` through the controller `pdev`. -/
def mapIoctl (P : Nat) (k : KState) (current : Task) (pdev : Nat) : Request → Outcome
  | .mapHost copyIn copyOut vaddr nPages env =>
    if !copyIn then k.fail .EFAULT
    else
      match mapUserspace P env k.nextId current pdev vaddr nPages with
      | .error e => k.fail e
      | .ok m => k.insertHost m copyOut
  | .mapDevice copyIn copyOut vaddr nPages env =>
    if !copyIn then k.fail .EFAULT
    else
      match mapDeviceMemory env k.nCtrls k.nextId current pdev vaddr nPages with
      | .error e => k.fail e
      | .ok m => k.insertDevice m copyOut
  | .mapDmabuf copyIn copyOut req env =>
    if !copyIn then k.fail .EFAULT
    else if req.size = 0 ∨ req.size % P ≠ 0 then k.fail .EINVAL
    else if req.gpuPtr = 0 ∨ req.gpuPtr % P ≠ 0 then k.fail .EINVAL
    else if req.ioaddrs = 0 ∨ req.capacity = 0 then k.fail .EINVAL
    else if req.offset ≠ 0 ∧ req.offset % P ≠ 0 then k.fail .EINVAL
    else if req.fd < 0 then k.fail .EINVAL
    else
      match mapDmabuf P env k.nextId current pdev req.gpuPtr req.offset (req.size / P)
          req.capacity with
      | .error e => k.fail e
      | .ok m => k.insertDmabuf m req.capacity env.invalid copyOut
  | .unmap copyIn addr => if !copyIn then k.fail .EFAULT else k.unmap current addr

/-- A host mapping that succeeds: the new mapping is the last of `host_list`, and its addresses
are copied out. -/
theorem mapIoctl_host_ok {P : Nat} {k : KState} {current : Task} {pdev : Nat}
    {copyIn copyOut : Bool} {vaddr nPages : Nat} {env : HostEnv}
    (h : (k.mapIoctl P current pdev (.mapHost copyIn copyOut vaddr nPages env)).err = none) :
    let r := k.mapIoctl P current pdev (.mapHost copyIn copyOut vaddr nPages env)
    ∃ m, mapUserspace P env k.nextId current pdev vaddr nPages = .ok m ∧
      r.k.hostList = k.hostList ++ [m] ∧ r.out = m.addrs := by
  cases copyIn with
  | false => cases h
  | true =>
    simp only [mapIoctl, Bool.not_true, Bool.false_eq_true, if_false] at h ⊢
    split at h
    · cases h
    · rename_i m hm
      cases copyOut with
      | false => cases h
      | true => exact ⟨m, hm, rfl, rfl⟩

theorem mapIoctl_device_ok {P : Nat} {k : KState} {current : Task} {pdev : Nat}
    {copyIn copyOut : Bool} {vaddr nPages : Nat} {env : GpuEnv}
    (h : (k.mapIoctl P current pdev (.mapDevice copyIn copyOut vaddr nPages env)).err = none) :
    let r := k.mapIoctl P current pdev (.mapDevice copyIn copyOut vaddr nPages env)
    ∃ m, mapDeviceMemory env k.nCtrls k.nextId current pdev vaddr nPages = .ok m ∧
      r.k.deviceList = k.deviceList ++ [m] ∧ r.out = m.addrs := by
  cases copyIn with
  | false => cases h
  | true =>
    simp only [mapIoctl, Bool.not_true, Bool.false_eq_true, if_false] at h ⊢
    split at h
    · cases h
    · rename_i m hm
      cases copyOut with
      | false => cases h
      | true => exact ⟨m, hm, rfl, rfl⟩

end KState

/-! ## Runs of ioctls -/

/-- An ioctl: who issues it, through which controller, and the request. -/
structure Ioctl where
  current : Task
  pdev : Nat
  req : Request

namespace KState

def init (nCtrls : Nat) : KState := ⟨[], [], nCtrls, 0, []⟩

def step (P : Nat) (k : KState) (c : Ioctl) : Option KState :=
  some (k.mapIoctl P c.current c.pdev c.req).k

/-- What an ioctl can do to the state: nothing, or release a mapping it did not insert, or append
a mapping made for the request to a list, or remove the mapping that `map_find` gives. -/
theorem mapIoctl_cases {j : Nat} (hj : j ≤ 64) (k : KState) (current : Task) (pdev : Nat)
    (req : Request) :
    let k' := (k.mapIoctl (2 ^ j) current pdev req).k
    k' = k ∨
      (∃ m, m.MadeFor k.nextId current pdev m.reqAddr ∧
        (k' = { k with hostList := k.hostList ++ [m], nextId := k.nextId + 1 } ∨
          k' = { k with deviceList := k.deviceList ++ [m], nextId := k.nextId + 1 } ∨
          k' = { k with nextId := k.nextId + 1, released := k.released ++ [m] })) ∨
      ∃ addr, k' = (k.unmap current addr).k := by
  have hP : 0 < 2 ^ j := Nat.two_pow_pos j
  cases req with
  | mapHost copyIn copyOut vaddr nPages env =>
    simp only [mapIoctl]
    split
    · exact .inl rfl
    · split
      · exact .inl rfl
      · rename_i m hm
        have hmade := mapUserspace_madeFor hP hm
        refine .inr (.inl ⟨m, by rw [hmade.req_eq]; exact hmade, .inl ?_⟩)
        simp only [insertHost]
        split <;> rfl
  | mapDevice copyIn copyOut vaddr nPages env =>
    simp only [mapIoctl]
    split
    · exact .inl rfl
    · split
      · exact .inl rfl
      · rename_i m hm
        have hmade := mapDeviceMemory_madeFor hm
        refine .inr (.inl ⟨m, by rw [hmade.req_eq]; exact hmade, .inr (.inl ?_)⟩)
        simp only [insertDevice]
        split <;> rfl
  | mapDmabuf copyIn copyOut req env =>
    simp only [mapIoctl]
    split
    · exact .inl rfl
    split
    · exact .inl rfl
    split
    · exact .inl rfl
    rename_i hptr
    split
    · exact .inl rfl
    split
    · exact .inl rfl
    split
    · exact .inl rfl
    split
    · exact .inl rfl
    rename_i m hm
    have hmade := mapDmabuf_madeFor hj req.gpuPtr_lt (by omega) hm
    refine .inr (.inl ⟨m, by rw [hmade.req_eq]; exact hmade, .inr ?_⟩)
    simp only [insertDmabuf]
    split
    · exact .inr rfl
    split
    · exact .inr rfl
    split
    · exact .inl rfl
    · exact .inr rfl
  | unmap copyIn addr =>
    simp only [mapIoctl]
    split
    · exact .inl rfl
    · exact .inr (.inr ⟨addr, rfl⟩)

/-- The invariant of the lists: a mapping matches the pointer it was made for, and no two mappings
are the same node. -/
structure Inv (k : KState) : Prop where
  own : ∀ m ∈ k.all, m.MadeFor m.id m.owner m.pdev m.reqAddr
  nodup : (k.all.map Map.id).Nodup
  bound : ∀ m ∈ k.all, m.id < k.nextId

theorem all_append_host (k : KState) (m : Map) :
    (({ k with hostList := k.hostList ++ [m], nextId := k.nextId + 1 } : KState).all).Perm
      (m :: k.all) := by
  simp only [all, List.append_assoc, List.singleton_append]
  exact List.perm_middle

theorem all_append_device (k : KState) (m : Map) :
    (({ k with deviceList := k.deviceList ++ [m], nextId := k.nextId + 1 } : KState).all).Perm
      (m :: k.all) := by
  simp only [all, ← List.append_assoc]
  exact List.perm_append_singleton m _

theorem Inv.add {k k' : KState} (h : k.Inv) {m : Map} {current : Task} {pdev : Nat}
    (hm : m.MadeFor k.nextId current pdev m.reqAddr) (hp : k'.all.Perm (m :: k.all))
    (hn : k'.nextId = k.nextId + 1) : k'.Inv := by
  have hid := hm.id_eq
  refine ⟨?_, ?_, ?_⟩
  · intro x hx
    rcases List.mem_cons.mp (hp.mem_iff.mp hx) with rfl | hx
    · exact ⟨rfl, rfl, rfl, rfl, hm.page_pos, hm.vaddr_eq⟩
    · exact h.own x hx
  · rw [(hp.map Map.id).nodup_iff, List.map_cons, List.nodup_cons]
    refine ⟨?_, h.nodup⟩
    intro hmem
    obtain ⟨x, hx, he⟩ := List.mem_map.mp hmem
    have := h.bound x hx
    omega
  · intro x hx
    rw [hn]
    rcases List.mem_cons.mp (hp.mem_iff.mp hx) with rfl | hx
    · omega
    · exact Nat.lt_succ_of_lt (h.bound x hx)

/-- Taking mappings away keeps the invariant. -/
theorem Inv.sub {k k' : KState} (h : k.Inv) (hs : k'.all.Sublist k.all)
    (hn : k.nextId ≤ k'.nextId) : k'.Inv :=
  ⟨fun x hx => h.own x (hs.subset hx), h.nodup.sublist (hs.map Map.id),
    fun x hx => (h.bound x (hs.subset hx)).trans_le hn⟩

theorem unmap_sublist (k : KState) (current : Task) (addr : Nat) :
    (k.unmap current addr).k.all.Sublist k.all ∧ (k.unmap current addr).k.nextId = k.nextId := by
  simp only [unmap]
  split
  · exact ⟨List.Sublist.append List.filter_sublist (List.Sublist.refl _), rfl⟩
  · split
    · exact ⟨List.Sublist.append (List.Sublist.refl _) List.filter_sublist, rfl⟩
    · exact ⟨List.Sublist.refl _, rfl⟩

theorem step_inv {j : Nat} (hj : j ≤ 64) {k k' : KState} {c : Ioctl} (h : k.Inv)
    (hs : k.step (2 ^ j) c = some k') : k'.Inv := by
  cases hs
  rcases mapIoctl_cases hj k c.current c.pdev c.req with he | ⟨m, hm, he | he | he⟩ | ⟨addr, he⟩
  · rw [he]
    exact h
  · rw [he]
    exact h.add hm (all_append_host k m) rfl
  · rw [he]
    exact h.add hm (all_append_device k m) rfl
  · rw [he]
    exact h.sub (List.Sublist.refl _) (Nat.le_succ _)
  · rw [he]
    obtain ⟨h1, h2⟩ := unmap_sublist k c.current addr
    exact h.sub h1 h2.ge

theorem run_inv {j : Nat} (hj : j ≤ 64) {nCtrls : Nat} {tr : List (KState × Ioctl)} {k : KState}
    (hr : Run (step (2 ^ j)) (init nCtrls) tr k) : k.Inv :=
  Run.inv_all Inv (fun _ _ _ => step_inv hj) hr
    ⟨fun m hm => by simp [init, all] at hm, by simp [init, all], fun m hm => by simp [init, all] at hm⟩

/-- From `k` to `k'`, `m` is released and taken out of its list, and every other mapping stays
where it is. -/
def Removes (k k' : KState) (m : Map) : Prop :=
  k'.hostList = listRemove k.hostList m ∧ k'.deviceList = listRemove k.deviceList m ∧
    k'.released = k.released ++ [m]

theorem listRemove_of_not_mem {l : List Map} {m : Map} (h : ∀ x ∈ l, x.id ≠ m.id) :
    listRemove l m = l := by
  rw [listRemove, List.filter_eq_self]
  intro x hx
  simpa using h x hx

/-- An unmap looks through both lists and removes the first mapping that matches. -/
theorem unmap_removes {k : KState} (h : k.Inv) {current : Task} {addr : Nat} {m : Map}
    (hf : k.all.find? (Map.matchesAddr current addr) = some m) :
    Removes k (k.unmap current addr).k m := by
  have hdisj : ∀ x ∈ k.hostList, ∀ y ∈ k.deviceList, x.id ≠ y.id := by
    have hn := h.nodup
    rw [all, List.map_append, List.nodup_append] at hn
    intro x hx y hy
    exact hn.2.2 x.id (List.mem_map_of_mem hx) y.id (List.mem_map_of_mem hy)
  rw [all, List.find?_append] at hf
  simp only [unmap, mapFind]
  cases hh : k.hostList.find? (Map.matchesAddr current addr) with
  | some x =>
    rw [hh, Option.some_or] at hf
    cases hf
    have hmem := List.mem_of_find?_eq_some hh
    exact ⟨rfl, (listRemove_of_not_mem fun y hy => (hdisj m hmem y hy).symm).symm, rfl⟩
  | none =>
    rw [hh, Option.none_or] at hf
    have hmem := List.mem_of_find?_eq_some hf
    simp only [hf]
    exact ⟨(listRemove_of_not_mem fun y hy => hdisj y hy m hmem).symm, rfl, rfl⟩

theorem unmap_none {k : KState} {current : Task} {addr : Nat}
    (hf : k.all.find? (Map.matchesAddr current addr) = none) : (k.unmap current addr).k = k := by
  rw [all, List.find?_append, Option.or_eq_none_iff] at hf
  simp only [unmap, mapFind, hf.1, hf.2, fail]

/-- `m` is a mapping that the process of `current` made for the pointer `addr` through the
controller `pdev` and that is still there. -/
structure Live (k : KState) (current : Task) (pdev addr : Nat) (m : Map) : Prop where
  mem : m ∈ k.all
  proc : m.owner.proc = current.proc
  pdev : m.pdev = pdev
  req : m.reqAddr = addr

end KState

/-- In every state reached by ioctls of any threads on any controllers: an unmap of `addr` releases
the mapping `m` that the process made for `addr` through the same controller, and nothing else,
exactly when the issuing thread is the one that made `m` and no mapping of that thread that matches
`addr` comes before `m` in `host_list` followed by `device_list`. -/
theorem unmap_exact (j : Nat) (hj : j ≤ 64) (nCtrls : Nat) (tr : List (KState × Ioctl))
    (k : KState) (hr : Run (KState.step (2 ^ j)) (.init nCtrls) tr k) (current : Task)
    (pdev addr : Nat) (m : Map) (hm : k.Live current pdev addr m) :
    k.Removes (k.mapIoctl (2 ^ j) current pdev (.unmap true addr)).k m ↔
      m.owner = current ∧
        ∃ l₁ l₂, k.all = l₁ ++ m :: l₂ ∧ ∀ x ∈ l₁, Map.matchesAddr current addr x = false := by
  have hinv : k.Inv := KState.run_inv hj hr
  have hown := hinv.own m hm.mem
  have hmatch : Map.matchesAddr current addr m = true ↔ m.owner = current := by
    have h1 := hown.page_pos
    have h2 := hown.vaddr_eq
    rw [hm.req] at h2
    simp [Map.matchesAddr, h1, ← h2]
  have hfind : k.all.find? (Map.matchesAddr current addr) = some m ↔
      m.owner = current ∧
        ∃ l₁ l₂, k.all = l₁ ++ m :: l₂ ∧ ∀ x ∈ l₁, Map.matchesAddr current addr x = false := by
    rw [List.find?_eq_some_iff_append, hmatch]
    simp only [Bool.not_eq_eq_eq_not, Bool.not_true]
  rw [← hfind]
  show k.Removes (k.unmap current addr).k m ↔ _
  constructor
  · intro hrem
    cases hf : k.all.find? (Map.matchesAddr current addr) with
    | none =>
      have hrel := hrem.2.2
      rw [KState.unmap_none hf] at hrel
      simp at hrel
    | some x =>
      -- one mapping is released, so the one found is `m`
      have hrel := (KState.unmap_removes hinv hf).2.2
      rw [hrem.2.2] at hrel
      simp only [List.append_cancel_left_eq, List.cons.injEq, and_true] at hrel
      rw [hrel]
  · exact KState.unmap_removes hinv

/-- A GPU mapping request for one 64 KiB page by one thread, through controller 0. -/
def gpuRequest (vaddr : Nat) : Ioctl :=
  ⟨⟨1, 1⟩, 0, .mapDevice true true vaddr 1
    ⟨true, true, true, .ok, fun _ => .ok fun g => BitVec.ofNat 64 (0x80000000 + g * 65536)⟩⟩

/-- One GPU page mapped and unmapped by the same thread. -/
theorem unmap_exact_one_page :
    ∃ tr k m, Run (KState.step (2 ^ 12)) (.init 1) tr k ∧ k.Live ⟨1, 1⟩ 0 0x10000 m ∧
      k.Removes (k.mapIoctl (2 ^ 12) ⟨1, 1⟩ 0 (.unmap true 0x10000)).k m := by
  have hr : Run (KState.step (2 ^ 12)) (.init 1) _ _ :=
    .cons (l := gpuRequest 0x10000) rfl .refl
  refine ⟨_, _, _, hr, ⟨List.mem_singleton_self _, rfl, rfl, rfl⟩, ?_⟩
  exact (unmap_exact 12 (by decide) 1 _ _ hr ⟨1, 1⟩ 0 0x10000 _
    ⟨List.mem_singleton_self _, rfl, rfl, rfl⟩).mpr ⟨rfl, [], [], rfl, by simp⟩

/-- Two pointers in one 64 KiB GPU page, mapped by one thread through one controller: unmapping the
second releases the mapping of the first. -/
theorem unmap_aliases :
    ¬ ∀ (j : Nat), j ≤ 64 → ∀ (nCtrls : Nat) (tr : List (KState × Ioctl)) (k : KState),
      Run (KState.step (2 ^ j)) (.init nCtrls) tr k → ∀ (current : Task) (pdev addr : Nat) (m : Map),
        k.Live current pdev addr m →
          k.Removes (k.mapIoctl (2 ^ j) current pdev (.unmap true addr)).k m := by
  intro h
  have hr : Run (KState.step (2 ^ 12)) (.init 1) _ _ :=
    .cons (l := gpuRequest 0x10000) rfl (.cons (l := gpuRequest 0x11000) rfl .refl)
  have hrem := h 12 (by decide) 1 _ _ hr ⟨1, 1⟩ 0 0x11000
    ⟨1, ⟨1, 1⟩, 0x10000, 0, 65536, [0x80010000#64], [], some .gpuMemory, 0x11000⟩
    ⟨List.mem_cons_of_mem _ (List.mem_singleton_self _), rfl, rfl, rfl⟩
  have := congrArg (List.map Map.id) hrem.2.2
  revert this
  decide

end Drv
end UGDS
