import UGDS.Lib.Chain
import UGDS.Lib.Keys
import UGDS.Nvm.Types

/-!
# UGDS.Nvm.RpcList

The binding handles of an admin reference (`rpc.cpp`). `_nvm_rpc_handle_insert` and
`_nvm_rpc_handle_remove` keep them in a singly linked list, and `_nvm_ref_put` releases those that are
left.

The memory is modelled as it is: a handle is allocated or not, and following a null pointer or a
pointer to memory that is not allocated is a fault. `_nvm_rpc_handle_remove` follows `curr` before it
checks that there is one.

* `Represents`: the memory holds a finite map, as a list in the order of insertion.
* `Represents.insert_present`, `Represents.insert_absent`, `Represents.remove_present`,
  `Represents.put`: what the functions do to it.
* `Represents.remove_absent`: removing a key that is not there follows a null pointer.
-/

namespace UGDS
namespace Nvm
namespace Rpc

open Lib

/-! ## The list in memory -/

/-- What a handle is inserted with: the key, the instance data and the callback. -/
structure Binding where
  key : BitVec 32
  data : Nat
  release : Nat
  deriving DecidableEq

/-- `struct rpc_handle`. -/
structure RpcHandle extends Binding where
  next : Option Nat

/-- The handles that are allocated. -/
abbrev RpcHeap := Nat → Option RpcHandle

/-- `struct nvm_admin_reference`. -/
structure AdminRef where
  ctrl : Nat
  handles : Option Nat
  data : Option Nat
  release : Option Nat

/-- Why a call does not return: it follows a null pointer or a pointer to memory that is not
allocated, or a loop takes more turns than it may. -/
inductive Fault where
  | null
  | unallocated
  | turns
  deriving DecidableEq

/-- The calls of callbacks, and of `_nvm_ctrl_put`. -/
inductive Callback where
  | handle (b : Binding)
  | binding (release : Nat) (data : Option Nat)
  | ctrlPut (ctrl : Nat)

structure RpcState where
  heap : RpcHeap
  ref : AdminRef
  calls : List Callback

/-- `*p`. -/
def deref (heap : RpcHeap) : Option Nat → Except Fault RpcHandle
  | none => .error .null
  | some p =>
    match heap p with
    | none => .error .unallocated
    | some handle => .ok handle

/-- The loop over the list, which ends at a handle with the key or at the end of the list: `prev` and
`curr` after it. -/
def search (heap : RpcHeap) (key : BitVec 32) :
    (fuel : Nat) → (prev curr : Option Nat) → Except Fault (Option Nat × Option Nat)
  | _, prev, none => .ok (prev, none)
  | 0, _, some _ => .error .turns
  | fuel + 1, prev, some curr =>
    match deref heap (some curr) with
    | .error f => .error f
    | .ok handle =>
      if handle.key = key then .ok (prev, some curr)
      else search heap key fuel (some curr) handle.next

namespace RpcState

/-- `prev->next = next`, or `ref->handles = next` when there is no `prev`. -/
def link (s : RpcState) (prev next : Option Nat) : Except Fault RpcState :=
  match prev with
  | none => .ok { s with ref := { s.ref with handles := next } }
  | some p =>
    match deref s.heap (some p) with
    | .error f => .error f
    | .ok handle => .ok { s with heap := Function.update s.heap p (some { handle with next := next }) }

/-- `malloc`, and the fields written. -/
def alloc (s : RpcState) (p : Nat) (b : Binding) : RpcState :=
  { s with heap := Function.update s.heap p (some ⟨b, none⟩) }

/-- `free`. -/
def free (s : RpcState) (p : Nat) : RpcState := { s with heap := Function.update s.heap p none }

/-- `handle->release(handle->key, handle->data)`. -/
def callRelease (s : RpcState) (b : Binding) : RpcState := { s with calls := s.calls ++ [.handle b] }

end RpcState

/-- What an insertion meets: `malloc`, which gives memory that is not allocated or none, and the
lock. -/
structure InsertEnv where
  malloc : RpcHeap → Option Nat
  lock : Option Errno
  fresh : ∀ heap p, malloc heap = some p → heap p = none

namespace RpcState

/-- The part of `_nvm_rpc_handle_insert` that holds the lock. -/
def insertHandle (fuel : Nat) (s : RpcState) (handle : Nat) (key : BitVec 32) :
    Except Fault (Option Errno × RpcState) :=
  match search s.heap key fuel none s.ref.handles with
  | .error f => .error f
  | .ok (_, some _) => .ok (some .EINVAL, s.free handle)
  | .ok (prev, none) =>
    match s.link prev (some handle) with
    | .error f => .error f
    | .ok s => .ok (none, s)

/-- `_nvm_rpc_handle_insert`. -/
def nvmRpcHandleInsert (fuel : Nat) (s : RpcState) (key : BitVec 32) (data release : Option Nat)
    (env : InsertEnv) : Except Fault (Option Errno × RpcState) :=
  match data, release with
  | some data, some release =>
    match env.malloc s.heap with
    | none => .ok (some .ENOMEM, s)
    | some handle =>
      let s := s.alloc handle ⟨key, data, release⟩
      match env.lock with
      | some e => .ok (some e, s.free handle)
      | none => s.insertHandle fuel handle key
  | _, _ => .ok (some .EINVAL, s)

/-- `_nvm_rpc_handle_remove`. -/
def nvmRpcHandleRemove (fuel : Nat) (s : RpcState) (key : BitVec 32) : Except Fault RpcState :=
  match search s.heap key fuel none s.ref.handles with
  | .error f => .error f
  | .ok (prev, curr) =>
    -- `curr->next` is read in both branches, and `curr` is checked after them
    match deref s.heap curr with
    | .error f => .error f
    | .ok handle =>
      match s.link prev handle.next with
      | .error f => .error f
      | .ok s =>
        match curr with
        | none => .ok s
        | some curr => .ok ((s.callRelease handle.toBinding).free curr)

end RpcState

/-- `release_handles`: the memory after it, and the handles whose callbacks it has called. -/
def releaseHandles : (fuel : Nat) → RpcHeap → Option Nat → Except Fault (RpcHeap × List Binding)
  | _, heap, none => .ok (heap, [])
  | 0, _, some _ => .error .turns
  | fuel + 1, heap, some curr =>
    match deref heap (some curr) with
    | .error f => .error f
    | .ok handle =>
      match releaseHandles fuel (Function.update heap curr none) handle.next with
      | .error f => .error f
      | .ok (heap, released) => .ok (heap, handle.toBinding :: released)

/-- `_nvm_ref_put`: the memory after it, and its calls. -/
def nvmRefPut (fuel : Nat) (heap : RpcHeap) : Option AdminRef → Except Fault (RpcHeap × List Callback)
  | none => .ok (heap, [])
  | some ref =>
    match releaseHandles fuel heap ref.handles with
    | .error f => .error f
    | .ok (heap, released) =>
      .ok (heap, released.map .handle ++
        (ref.release.map fun release => .binding release ref.data).toList ++ [.ctrlPut ref.ctrl])

/-- A reference that `_nvm_ref_get` has made, with what it was bound to since. -/
def RpcState.init (ctrl : Nat) (data release : Option Nat) : RpcState :=
  ⟨fun _ => none, ⟨ctrl, none, data, release⟩, []⟩

/-- The handle that a callback releases. -/
def Callback.released : Callback → Option Binding
  | .handle b => some b
  | _ => none

/-- The handles whose callbacks were called. -/
def released (calls : List Callback) : List Binding := calls.filterMap Callback.released

/-! ## Finite maps -/

/-- A finite map, in the order of insertion. -/
structure HandleMap where
  bindings : List Binding
  nodup : (bindings.map Binding.key).Nodup

namespace HandleMap

def keys (M : HandleMap) : List (BitVec 32) := M.bindings.map Binding.key

def empty : HandleMap := ⟨[], List.nodup_nil⟩

theorem insert_nodup {M : HandleMap} {b : Binding} (h : b.key ∉ M.keys) :
    ((M.bindings ++ [b]).map Binding.key).Nodup := by
  rw [List.map_append, List.map_singleton]
  exact nodup_snoc M.nodup h

def insert (M : HandleMap) (b : Binding) (h : b.key ∉ M.keys) : HandleMap :=
  ⟨M.bindings ++ [b], insert_nodup h⟩

theorem remove_nodup {M : HandleMap} {l₁ l₂ : List Binding} {b : Binding}
    (h : M.bindings = l₁ ++ b :: l₂) : ((l₁ ++ l₂).map Binding.key).Nodup := by
  have hnodup := M.nodup
  rw [h, List.map_append, List.map_cons] at hnodup
  rw [List.map_append]
  exact hnodup.sublist ((List.sublist_cons_self _ _).append_left _)

/-- Without the binding between `l₁` and `l₂`. -/
def remove (M : HandleMap) (l₁ l₂ : List Binding) (b : Binding) (h : M.bindings = l₁ ++ b :: l₂) :
    HandleMap :=
  ⟨l₁ ++ l₂, remove_nodup h⟩

end HandleMap

/-- The memory holds the handles of `l`, linked from `p` to `q`. -/
abbrev Linked (heap : RpcHeap) (p : Option Nat) (l : List (Nat × Binding)) (q : Option Nat) : Prop :=
  Seg RpcHandle.next RpcHandle.toBinding heap p l q

/-- The handles that are allocated are those of the list, and the list holds the finite map. -/
structure Represents (s : RpcState) (M : HandleMap) : Prop where
  list : ∃ l, Linked s.heap s.ref.handles l none ∧ l.map Prod.snd = M.bindings ∧
    ∀ p, s.heap p ≠ none → p ∈ l.map Prod.fst

/-! ## Loops -/

/-- The value of `prev` after the loop has gone through `l`. -/
def lastPlace (prev : Option Nat) : List (Nat × Binding) → Option Nat
  | [] => prev
  | x :: l => lastPlace (some x.1) l

theorem lastPlace_snoc (prev : Option Nat) (l : List (Nat × Binding)) (x : Nat × Binding) :
    lastPlace prev (l ++ [x]) = some x.1 := by
  induction l generalizing prev with
  | nil => rfl
  | cons y l ih => exact ih _

theorem deref_some {heap : RpcHeap} {p : Nat} {handle : RpcHandle} (h : heap p = some handle) :
    deref heap (some p) = .ok handle := by
  simp only [deref, h]

/-- The loop goes through the handles before the first one with the key. -/
theorem search_eq {heap : RpcHeap} {key : BitVec 32} {l₁ l₂ : List (Nat × Binding)} {fuel : Nat}
    (prev : Option Nat) {curr : Option Nat} (h : Linked heap curr (l₁ ++ l₂) none)
    (h₁ : ∀ x ∈ l₁, x.2.key ≠ key) (h₂ : ∀ x ∈ l₂.head?, x.2.key = key)
    (hfuel : (l₁ ++ l₂).length ≤ fuel) :
    search heap key fuel prev curr = .ok (lastPlace prev l₁, l₂.head?.map Prod.fst) := by
  induction l₁ generalizing fuel prev curr with
  | nil =>
    cases l₂ with
    | nil =>
      cases h
      cases fuel <;> rfl
    | cons x l₂ =>
      obtain ⟨rfl, handle, hx, hb, -⟩ := h
      obtain ⟨fuel, rfl⟩ := Nat.exists_eq_add_one_of_ne_zero (by simp at hfuel; omega : fuel ≠ 0)
      have hkey : handle.key = key := by
        rw [hb]
        exact h₂ x rfl
      simp only [search, deref_some hx, if_pos hkey]
      rfl
  | cons x l₁ ih =>
    obtain ⟨rfl, handle, hx, hb, hrest⟩ := h
    obtain ⟨fuel, rfl⟩ := Nat.exists_eq_add_one_of_ne_zero (by simp at hfuel; omega : fuel ≠ 0)
    have hkey : handle.key ≠ key := by
      rw [hb]
      exact h₁ x List.mem_cons_self
    simp only [search, deref_some hx, if_neg hkey]
    exact ih _ hrest (fun y hy => h₁ y (List.mem_cons_of_mem x hy)) (Nat.le_of_succ_le_succ hfuel)

theorem link_eq {s : RpcState} {l : List (Nat × Binding)} {q : Option Nat}
    (h : Linked s.heap s.ref.handles l q) (hnodup : (l.map Prod.fst).Nodup) (next : Option Nat) :
    ∃ s', s.link (lastPlace none l) next = .ok s' ∧ Linked s'.heap s'.ref.handles l next ∧
      (∀ p ∉ l.map Prod.fst, s'.heap p = s.heap p) ∧
      (∀ p, s'.heap p ≠ none → s.heap p ≠ none) ∧ s'.calls = s.calls := by
  obtain rfl | ⟨l, x, rfl⟩ := List.eq_nil_or_concat l
  · exact ⟨_, rfl, rfl, fun _ _ => rfl, fun _ hp => hp, rfl⟩
  rw [List.concat_eq_append] at h hnodup ⊢
  obtain ⟨handle, hx, hb⟩ := h.cell (List.mem_append_right l (List.mem_singleton_self x))
  have hlast : x.1 ∉ l.map Prod.fst := by
    rw [List.map_append, List.nodup_append] at hnodup
    intro hmem
    exact hnodup.2.2 _ hmem x.1 (by simp) rfl
  simp only [lastPlace_snoc, RpcState.link, deref_some hx]
  refine ⟨_, rfl, h.relink hlast (c := { handle with next := next }) hb, ?_, ?_, rfl⟩
  · intro p hp
    refine Function.update_of_ne ?_ ..
    rintro rfl
    exact hp (by simp)
  · intro p hp
    by_cases hpx : p = x.1
    · rw [hpx, hx]
      exact Option.some_ne_none handle
    · intro hnone
      exact hp ((Function.update_of_ne hpx ..).trans hnone)

theorem releaseHandles_eq {heap : RpcHeap} {curr : Option Nat} {l : List (Nat × Binding)}
    {fuel : Nat} (h : Linked heap curr l none) (hfuel : l.length ≤ fuel) :
    ∃ heap', releaseHandles fuel heap curr = .ok (heap', l.map Prod.snd) ∧
      (∀ p ∈ l.map Prod.fst, heap' p = none) ∧ ∀ p ∉ l.map Prod.fst, heap' p = heap p := by
  induction l generalizing heap curr fuel with
  | nil =>
    cases h
    refine ⟨heap, ?_, by simp, fun _ _ => rfl⟩
    cases fuel <;> rfl
  | cons x l ih =>
    have hnodup := h.nodup
    obtain ⟨rfl, handle, hx, hb, hrest⟩ := h
    obtain ⟨fuel, rfl⟩ := Nat.exists_eq_add_one_of_ne_zero (by simp at hfuel; omega : fuel ≠ 0)
    rw [List.map_cons, List.nodup_cons] at hnodup
    obtain ⟨heap', hrun, hin, hout⟩ :=
      ih (hrest.update hnodup.1 none) (Nat.le_of_succ_le_succ hfuel)
    refine ⟨heap', ?_, ?_, ?_⟩
    · simp only [releaseHandles, deref_some hx, hrun, hb, List.map_cons]
    · intro p hp
      rcases List.mem_cons.mp hp with rfl | hp
      · rw [hout _ hnodup.1, Function.update_self]
      · exact hin p hp
    · intro p hp
      rw [List.map_cons, List.mem_cons, not_or] at hp
      rw [hout p hp.2, Function.update_of_ne hp.1]

/-! ## Calls -/

namespace RpcState

theorem alloc_heap {s : RpcState} {p q : Nat} (h : q ≠ p) (b : Binding) :
    (s.alloc p b).heap q = s.heap q :=
  Function.update_of_ne h ..

theorem free_heap {s : RpcState} {p q : Nat} (h : q ≠ p) : (s.free p).heap q = s.heap q :=
  Function.update_of_ne h ..

theorem free_alloc {s : RpcState} {p : Nat} (h : s.heap p = none) (b : Binding) :
    (s.alloc p b).free p = s := by
  simp only [alloc, free, Function.update_idem]
  rw [← h, Function.update_eq_self]

/-- An insertion fails and leaves everything as it was, or it gets to the list with a new handle. -/
theorem nvmRpcHandleInsert_cases (fuel : Nat) (s : RpcState) (key : BitVec 32)
    (data release : Option Nat) (env : InsertEnv) :
    (∃ e, s.nvmRpcHandleInsert fuel key data release env = .ok (some e, s)) ∨
      ∃ d r p, data = some d ∧ release = some r ∧ s.heap p = none ∧
        s.nvmRpcHandleInsert fuel key data release env =
          (s.alloc p ⟨key, d, r⟩).insertHandle fuel p key := by
  cases data with
  | none => exact .inl ⟨_, rfl⟩
  | some d =>
    cases release with
    | none => exact .inl ⟨_, rfl⟩
    | some r =>
      simp only [nvmRpcHandleInsert]
      cases hp : env.malloc s.heap with
      | none => exact .inl ⟨_, rfl⟩
      | some p =>
        have hfresh := env.fresh _ _ hp
        cases hl : env.lock with
        | some e => exact .inl ⟨e, by simp only [free_alloc hfresh]⟩
        | none => exact .inr ⟨d, r, p, rfl, rfl, hfresh, rfl⟩

end RpcState

theorem HandleMap.exists_of_mem {M : HandleMap} {key : BitVec 32} (h : key ∈ M.keys) :
    ∃ l₁ b l₂, M.bindings = l₁ ++ b :: l₂ ∧ b.key = key := by
  obtain ⟨b, hb, hkey⟩ := List.mem_map.mp h
  obtain ⟨l₁, l₂, hl⟩ := List.append_of_mem hb
  exact ⟨l₁, b, l₂, hl, hkey⟩

namespace Represents

variable {s s' : RpcState} {M : HandleMap} {fuel : Nat} {key : BitVec 32}

theorem init (ctrl : Nat) (data release : Option Nat) :
    Represents (.init ctrl data release) .empty :=
  ⟨[], rfl, rfl, fun _ hp => absurd rfl hp⟩

/-- The list around one of its bindings. -/
theorem split (h : Represents s M) {b₁ b₂ : List Binding} {b : Binding}
    (hb : M.bindings = b₁ ++ b :: b₂) :
    ∃ l₁ p l₂, Linked s.heap s.ref.handles (l₁ ++ (p, b) :: l₂) none ∧ l₁.map Prod.snd = b₁ ∧
      l₂.map Prod.snd = b₂ ∧ (∀ x ∈ l₁, x.2.key ≠ b.key) ∧
      ∀ q, s.heap q ≠ none → q ∈ (l₁ ++ (p, b) :: l₂).map Prod.fst := by
  obtain ⟨l, hl, hmap, hown⟩ := h.list
  rw [hb] at hmap
  obtain ⟨l₁, l', rfl, h₁, hl'⟩ := List.map_eq_append_iff.mp hmap
  obtain ⟨⟨p, b'⟩, l₂, rfl, rfl, h₂⟩ := List.map_eq_cons_iff.mp hl'
  refine ⟨l₁, p, l₂, hl, h₁, h₂, ?_, hown⟩
  intro x hx heq
  have hnodup := M.nodup
  rw [hb, List.map_append, List.nodup_append] at hnodup
  have hmem : x.2 ∈ b₁ := h₁ ▸ List.mem_map_of_mem hx
  exact hnodup.2.2 _ (List.mem_map_of_mem hmem) _ List.mem_cons_self heq

/-- A new handle is not in the list. -/
theorem alloc_linked {l : List (Nat × Binding)} {q : Option Nat} {p : Nat}
    (h : Linked s.heap s.ref.handles l q) (hp : s.heap p = none) (b : Binding) :
    Linked (s.alloc p b).heap (s.alloc p b).ref.handles l q ∧ p ∉ l.map Prod.fst := by
  have hnot : p ∉ l.map Prod.fst := by
    intro hmem
    obtain ⟨x, hx, rfl⟩ := List.mem_map.mp hmem
    obtain ⟨handle, hsome, -⟩ := h.cell hx
    rw [hp] at hsome
    cases hsome
  exact ⟨h.update hnot _, hnot⟩

/-- Without the key the loop ends at the end of the list. -/
theorem search_absent {heap : RpcHeap} {curr : Option Nat} {l : List (Nat × Binding)}
    (h : Linked heap curr l none) (hmap : l.map Prod.snd = M.bindings)
    (hfuel : M.bindings.length ≤ fuel) (hkey : key ∉ M.keys) :
    search heap key fuel none curr = .ok (lastPlace none l, none) := by
  have hne : ∀ x ∈ l, x.2.key ≠ key := by
    intro x hx heq
    refine hkey (heq ▸ ?_)
    rw [HandleMap.keys, ← hmap]
    exact List.mem_map_of_mem (List.mem_map_of_mem hx)
  rw [← List.append_nil l] at h
  exact search_eq none h hne (by simp) (by simpa [← hmap] using hfuel)

theorem insert_present (h : Represents s M) (hfuel : M.bindings.length ≤ fuel) (hkey : key ∈ M.keys)
    (data release : Option Nat) (env : InsertEnv) :
    ∃ e, s.nvmRpcHandleInsert fuel key data release env = .ok (some e, s) := by
  rcases RpcState.nvmRpcHandleInsert_cases fuel s key data release env with
    herr | ⟨d, r, p, -, -, hp, hinsert⟩
  · exact herr
  obtain ⟨b₁, b, b₂, hb, rfl⟩ := HandleMap.exists_of_mem hkey
  obtain ⟨l₁, a, l₂, hl, rfl, rfl, hne, -⟩ := h.split hb
  obtain ⟨hl', -⟩ := alloc_linked hl hp ⟨b.key, d, r⟩
  have hlen : (l₁ ++ (a, b) :: l₂).length ≤ fuel := by simpa [hb] using hfuel
  have hsearch := search_eq none hl' hne (by simp) hlen
  refine ⟨.EINVAL, ?_⟩
  rw [hinsert]
  simp only [RpcState.insertHandle, hsearch, List.head?_cons, Option.map_some,
    RpcState.free_alloc hp]

theorem insert_absent (h : Represents s M) (hfuel : M.bindings.length ≤ fuel) (hkey : key ∉ M.keys)
    (data release : Option Nat) (env : InsertEnv) :
    (∃ e, s.nvmRpcHandleInsert fuel key data release env = .ok (some e, s)) ∨
      ∃ d r s', data = some d ∧ release = some r ∧
        s.nvmRpcHandleInsert fuel key data release env = .ok (none, s') ∧
        Represents s' (M.insert ⟨key, d, r⟩ hkey) ∧ s'.calls = s.calls := by
  rcases RpcState.nvmRpcHandleInsert_cases fuel s key data release env with
    herr | ⟨d, r, p, hd, hr, hp, hinsert⟩
  · exact .inl herr
  obtain ⟨l, hl, hmap, hown⟩ := h.list
  obtain ⟨hl', hnot⟩ := alloc_linked hl hp ⟨key, d, r⟩
  have hsearch := search_absent hl' hmap hfuel hkey
  obtain ⟨s', hlink, hlist, hsame, hsub, hcalls⟩ := link_eq hl' hl.nodup (some p)
  have hcell : s'.heap p = some ⟨⟨key, d, r⟩, none⟩ := by
    rw [hsame p hnot]
    exact Function.update_self ..
  refine .inr ⟨d, r, s', hd, hr, ?_, ⟨l ++ [(p, ⟨key, d, r⟩)], ?_, ?_, ?_⟩, hcalls⟩
  · rw [hinsert]
    simp only [RpcState.insertHandle, hsearch, hlink]
  · exact Seg.append_iff.mpr ⟨some p, hlist, rfl, _, hcell, rfl, rfl⟩
  · rw [List.map_append, hmap]
    rfl
  · intro q hq
    rw [List.map_append, List.mem_append]
    by_cases hqp : q = p
    · exact .inr (by simp [hqp])
    · refine .inl (hown q ?_)
      have hne := hsub q hq
      rwa [RpcState.alloc_heap hqp] at hne

theorem remove_present (h : Represents s M) (hfuel : M.bindings.length ≤ fuel)
    {l₁ l₂ : List Binding} {b : Binding} (hb : M.bindings = l₁ ++ b :: l₂) :
    ∃ s', s.nvmRpcHandleRemove fuel b.key = .ok s' ∧ Represents s' (M.remove l₁ l₂ b hb) ∧
      s'.calls = s.calls ++ [.handle b] := by
  obtain ⟨m₁, p, m₂, hl, h₁, h₂, hne, hown⟩ := h.split hb
  have hlen : (m₁ ++ (p, b) :: m₂).length ≤ fuel := by
    rw [hb, ← h₁, ← h₂] at hfuel
    simpa using hfuel
  have hsearch := search_eq none hl hne (by simp) hlen
  have hnodup := hl.nodup
  rw [List.map_append, List.map_cons, List.nodup_append, List.nodup_cons] at hnodup
  obtain ⟨hnodup₁, ⟨hp₂, -⟩, hdisj⟩ := hnodup
  have hp₁ : p ∉ m₁.map Prod.fst := fun hmem => hdisj p hmem p List.mem_cons_self rfl
  obtain ⟨q, hfront, rfl, handle, hcell, rfl, hback⟩ := Seg.append_iff.mp hl
  obtain ⟨s', hlink, hlist, hsame, hsub, hcalls⟩ := link_eq hfront hnodup₁ handle.next
  have hback' : Linked s'.heap handle.next m₂ none := by
    refine hback.frame ?_
    intro x hx
    refine hsame _ ?_
    intro hmem
    exact hdisj _ hmem _ (List.mem_cons_of_mem p (List.mem_map_of_mem hx)) rfl
  refine ⟨(s'.callRelease handle.toBinding).free p, ?_, ⟨m₁ ++ m₂, ?_, ?_, ?_⟩, ?_⟩
  · simp only [RpcState.nvmRpcHandleRemove, hsearch, List.head?_cons, Option.map_some,
      deref_some hcell, hlink]
  · -- the handle is in neither part, so that freeing it changes nothing there
    exact Seg.append_iff.mpr ⟨_, hlist.update hp₁ _, hback'.update hp₂ _⟩
  · rw [List.map_append, h₁, h₂]
    rfl
  · intro q hq
    have hqp : q ≠ p := by
      rintro rfl
      exact hq (Function.update_self ..)
    rw [RpcState.free_heap hqp] at hq
    have hmem := hown q (hsub q hq)
    simpa [hqp] using hmem
  · rw [← hcalls]
    rfl

/-- At the end of the list `curr` is null. -/
theorem remove_absent (h : Represents s M) (hfuel : M.bindings.length ≤ fuel) (hkey : key ∉ M.keys) :
    s.nvmRpcHandleRemove fuel key = .error .null := by
  obtain ⟨l, hl, hmap, -⟩ := h.list
  simp only [RpcState.nvmRpcHandleRemove, search_absent hl hmap hfuel hkey, deref]

/-- The memory holds one finite map only. -/
theorem unique {M' : HandleMap} (h : Represents s M) (h' : Represents s M') : M = M' := by
  obtain ⟨l, hl, hmap, -⟩ := h.list
  obtain ⟨l', hl', hmap', -⟩ := h'.list
  cases M
  cases M'
  simp only [HandleMap.mk.injEq]
  exact hmap.symm.trans ((congrArg _ (hl.unique hl')).trans hmap')

/-- `_nvm_ref_put` calls the callbacks of the handles that are left and frees them. -/
theorem put (h : Represents s M) (hfuel : M.bindings.length ≤ fuel) :
    ∃ heap calls, nvmRefPut fuel s.heap (some s.ref) = .ok (heap, calls) ∧ (∀ p, heap p = none) ∧
      released calls = M.bindings := by
  obtain ⟨l, hl, hmap, hown⟩ := h.list
  have hlen : l.length ≤ fuel := by simpa [← hmap] using hfuel
  obtain ⟨heap, hrun, hin, hout⟩ := releaseHandles_eq hl hlen
  simp only [nvmRefPut, hrun]
  refine ⟨heap, _, rfl, ?_, ?_⟩
  · intro p
    by_cases hp : p ∈ l.map Prod.fst
    · exact hin p hp
    · rw [hout p hp]
      by_contra hne
      exact hp (hown p hne)
  · rw [← hmap]
    cases s.ref.release <;>
      simp [released, Callback.released, List.filterMap_map, Function.comp_def]

end Represents

end Rpc
end Nvm
end UGDS
