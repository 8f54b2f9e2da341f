import UGDS.Lib.Steps
import UGDS.Nvm.RpcList

/-!
# UGDS.Nvm.RpcHandles

Sequences of `_nvm_rpc_handle_insert` and `_nvm_rpc_handle_remove` on one admin reference (`rpc.cpp`),
and `_nvm_ref_put` at the end. The calls hold the lock of the reference, so that they happen one after
the other.

* `Represents.step`, `run_represents`: after every sequence of calls the list is a finite map, and
  every handle that was inserted was released or is in it.
* `rpc_handles_exact`: the sequences of calls over which the list does what a finite map does, with
  every handle released once.
* `rpc_remove_faults`: a removal from an empty list, and one from a list without the key.
-/

namespace UGDS
namespace Nvm
namespace Rpc

open Lib

/-! ## Sequences of calls -/

inductive RpcOp where
  | insert (key : BitVec 32) (data release : Option Nat) (env : InsertEnv)
  | remove (key : BitVec 32)

namespace RpcState

def step (fuel : Nat) (s : RpcState) : RpcOp → Option RpcState
  | .insert key data release env =>
    ((s.nvmRpcHandleInsert fuel key data release env).map Prod.snd).toOption
  | .remove key => (s.nvmRpcHandleRemove fuel key).toOption

/-- The handle that a call inserts, if it returns 0. -/
def added (fuel : Nat) (s : RpcState) : RpcOp → List Binding
  | .insert key (some data) (some release) env =>
    match s.nvmRpcHandleInsert fuel key (some data) (some release) env with
    | .ok (none, _) => [⟨key, data, release⟩]
    | _ => []
  | _ => []

end RpcState

/-- The handles that were inserted. -/
def inserted (fuel : Nat) (tr : List (RpcState × RpcOp)) : List Binding :=
  tr.flatMap fun x => x.1.added fuel x.2

/-! ## Histories -/

theorem released_append (c₁ c₂ : List Callback) : released (c₁ ++ c₂) = released c₁ ++ released c₂ :=
  List.filterMap_append

/-- A call that fails has inserted nothing. -/
theorem added_of_error {fuel : Nat} {s s' : RpcState} {key : BitVec 32} {data release : Option Nat}
    {env : InsertEnv} {e : Errno}
    (h : s.nvmRpcHandleInsert fuel key data release env = .ok (some e, s')) :
    s.added fuel (.insert key data release env) = [] := by
  cases data with
  | none => rfl
  | some d =>
    cases release with
    | none => rfl
    | some r => simp only [RpcState.added, h]

/-- One call, on the finite map and on the handles that were inserted and released. -/
theorem Represents.step {s s' : RpcState} {M : HandleMap} {fuel : Nat} {op : RpcOp}
    (h : Represents s M) (hfuel : M.bindings.length ≤ fuel) (hs : s.step fuel op = some s') :
    ∃ M', Represents s' M' ∧ M'.bindings.length ≤ M.bindings.length + 1 ∧
      (released s'.calls ++ M'.bindings).Perm
        (released s.calls ++ M.bindings ++ s.added fuel op) := by
  cases op with
  | insert key data release env =>
    have hfail {e : Errno} (he : s.nvmRpcHandleInsert fuel key data release env = .ok (some e, s)) :
        ∃ M', Represents s' M' ∧ M'.bindings.length ≤ M.bindings.length + 1 ∧
          (released s'.calls ++ M'.bindings).Perm
            (released s.calls ++ M.bindings ++ s.added fuel (.insert key data release env)) := by
      rw [added_of_error he, List.append_nil]
      rw [RpcState.step, he] at hs
      cases hs
      exact ⟨M, h, Nat.le_succ _, .refl _⟩
    by_cases hkey : key ∈ M.keys
    · obtain ⟨e, he⟩ := h.insert_present hfuel hkey data release env
      exact hfail he
    rcases h.insert_absent hfuel hkey data release env with
      ⟨e, he⟩ | ⟨d, r, s₁, rfl, rfl, hok, h₁, hcalls⟩
    · exact hfail he
    · rw [RpcState.step, hok] at hs
      cases hs
      refine ⟨_, h₁, by simp [HandleMap.insert], ?_⟩
      simp only [RpcState.added, hok, hcalls, HandleMap.insert, List.append_assoc]
      exact .refl _
  | remove key =>
    by_cases hkey : key ∈ M.keys
    · obtain ⟨l₁, b, l₂, hb, rfl⟩ := HandleMap.exists_of_mem hkey
      obtain ⟨s₁, hok, h₁, hcalls⟩ := h.remove_present hfuel hb
      rw [RpcState.step, hok] at hs
      cases hs
      refine ⟨_, h₁, by simp [HandleMap.remove, hb]; omega, ?_⟩
      rw [hcalls, released_append, hb]
      simp only [HandleMap.remove, RpcState.added, released, Callback.released, List.append_assoc,
        List.append_nil, List.filterMap_cons, List.filterMap_nil, List.singleton_append]
      exact List.perm_middle.symm.append_left _
    · rw [RpcState.step, h.remove_absent hfuel hkey] at hs
      cases hs

/-- Any sequence of calls on a new reference that can be made. -/
theorem run_represents {fuel ctrl : Nat} {data release : Option Nat}
    {tr : List (RpcState × RpcOp)} {s : RpcState}
    (hr : Run (RpcState.step fuel) (.init ctrl data release) tr s) (hfuel : tr.length ≤ fuel) :
    ∃ M, Represents s M ∧ M.bindings.length ≤ tr.length ∧
      (released s.calls ++ M.bindings).Perm (inserted fuel tr) := by
  let inv (tr : List (RpcState × RpcOp)) (s : RpcState) : Prop :=
    tr.length ≤ fuel → ∃ M, Represents s M ∧ M.bindings.length ≤ tr.length ∧
      (released s.calls ++ M.bindings).Perm (inserted fuel tr)
  have hstart : inv [] (.init ctrl data release) := fun _ =>
    ⟨.empty, .init ctrl data release, Nat.zero_le _, .refl _⟩
  refine Run.inv_trace inv ?_ hr hstart hfuel
  intro tr s op s' hinv hs hlen
  rw [List.length_append, List.length_singleton] at hlen ⊢
  obtain ⟨M, h, hle, hperm⟩ := hinv (by omega)
  obtain ⟨M', h', hle', hperm'⟩ := h.step (by omega) hs
  refine ⟨M', h', by omega, hperm'.trans ?_⟩
  rw [inserted, List.flatMap_append, List.flatMap_singleton]
  exact hperm.append_right _

/-! ## The list as a finite map -/

/-- What a call does to the finite map that the list is: an insertion fails and leaves everything as
it is, or it appends a binding with a key that was absent; a removal takes out the binding with the
key and calls its callback, and does nothing when the key is absent. -/
def RpcState.CallExact (fuel : Nat) (s : RpcState) : RpcOp → Prop
  | .insert key data release env => ∃ M, Represents s M ∧
    (key ∈ M.keys → ∃ e, s.nvmRpcHandleInsert fuel key data release env = .ok (some e, s)) ∧
    (key ∉ M.keys →
      (∃ e, s.nvmRpcHandleInsert fuel key data release env = .ok (some e, s)) ∨
        ∃ d r s' M', data = some d ∧ release = some r ∧
          s.nvmRpcHandleInsert fuel key data release env = .ok (none, s') ∧ Represents s' M' ∧
          M'.bindings = M.bindings ++ [⟨key, d, r⟩] ∧ s'.calls = s.calls)
  | .remove key => ∃ M, Represents s M ∧
    (∀ l₁ b l₂, M.bindings = l₁ ++ b :: l₂ → b.key = key →
      ∃ s' M', s.nvmRpcHandleRemove fuel key = .ok s' ∧ Represents s' M' ∧
        M'.bindings = l₁ ++ l₂ ∧ s'.calls = s.calls ++ [.handle b]) ∧
    (key ∉ M.keys → s.nvmRpcHandleRemove fuel key = .ok s)

/-- The calls `ops` on a new reference, and `_nvm_ref_put` after them: no call faults, each does to the
finite map what it should, and at the end no handle is allocated and the callbacks that were called
are those of the handles that were inserted. -/
def IsFiniteMap (fuel ctrl : Nat) (data release : Option Nat) (ops : List RpcOp) : Prop :=
  ∃ tr s, Run (RpcState.step fuel) (.init ctrl data release) tr s ∧ tr.map Prod.snd = ops ∧
    (∀ x ∈ tr, x.1.CallExact fuel x.2) ∧
    ∃ heap calls, nvmRefPut fuel s.heap (some s.ref) = .ok (heap, calls) ∧ (∀ p, heap p = none) ∧
      (released (s.calls ++ calls)).Perm (inserted fuel tr)

/-- Every key that is removed is in the list at that time. -/
def RemovesPresent (fuel ctrl : Nat) (data release : Option Nat) (ops : List RpcOp) : Prop :=
  ∀ tr s key rest, Run (RpcState.step fuel) (.init ctrl data release) tr s →
    ops = tr.map Prod.snd ++ .remove key :: rest → ∃ M, Represents s M ∧ key ∈ M.keys

/-- A call that can be made does what it should. -/
theorem Represents.callExact {s s' : RpcState} {M : HandleMap} {fuel : Nat} {op : RpcOp}
    (h : Represents s M) (hfuel : M.bindings.length ≤ fuel) (hs : s.step fuel op = some s') :
    s.CallExact fuel op := by
  cases op with
  | insert key data release env =>
    refine ⟨M, h, fun hkey => h.insert_present hfuel hkey data release env, fun hkey => ?_⟩
    rcases h.insert_absent hfuel hkey data release env with
      herr | ⟨d, r, s₁, hd, hr, hok, h₁, hcalls⟩
    · exact .inl herr
    · exact .inr ⟨d, r, s₁, _, hd, hr, hok, h₁, rfl, hcalls⟩
  | remove key =>
    refine ⟨M, h, ?_, ?_⟩
    · rintro l₁ b l₂ hb rfl
      obtain ⟨s₁, hok, h₁, hcalls⟩ := h.remove_present hfuel hb
      exact ⟨s₁, _, hok, h₁, rfl, hcalls⟩
    · intro hkey
      rw [RpcState.step, h.remove_absent hfuel hkey] at hs
      cases hs

/-- A call can be made unless it removes a key that is absent. -/
theorem Represents.enabled {s : RpcState} {M : HandleMap} {fuel : Nat} {op : RpcOp}
    (h : Represents s M) (hfuel : M.bindings.length ≤ fuel)
    (hop : ∀ key, op = .remove key → key ∈ M.keys) : ∃ s', s.step fuel op = some s' := by
  cases op with
  | insert key data release env =>
    have hok : ∃ r s', s.nvmRpcHandleInsert fuel key data release env = .ok (r, s') := by
      by_cases hkey : key ∈ M.keys
      · obtain ⟨e, he⟩ := h.insert_present hfuel hkey data release env
        exact ⟨some e, s, he⟩
      · rcases h.insert_absent hfuel hkey data release env with
          ⟨e, he⟩ | ⟨-, -, s₁, -, -, hok, -⟩
        · exact ⟨some e, s, he⟩
        · exact ⟨none, s₁, hok⟩
    obtain ⟨r, s', hok⟩ := hok
    exact ⟨s', by rw [RpcState.step, hok]; rfl⟩
  | remove key =>
    obtain ⟨l₁, b, l₂, hb, rfl⟩ := HandleMap.exists_of_mem (hop key rfl)
    obtain ⟨s', hok, -⟩ := h.remove_present hfuel hb
    exact ⟨s', by rw [RpcState.step, hok]; rfl⟩

/-- The calls of a sequence that removes only keys that are present can all be made. -/
theorem RemovesPresent.run {fuel ctrl : Nat} {data release : Option Nat} {ops : List RpcOp}
    (h : RemovesPresent fuel ctrl data release ops) (hfuel : ops.length ≤ fuel) :
    ∃ tr s, Run (RpcState.step fuel) (.init ctrl data release) tr s ∧ tr.map Prod.snd = ops := by
  let inv (rest : List RpcOp) (s : RpcState) : Prop :=
    ∃ tr, Run (RpcState.step fuel) (.init ctrl data release) tr s ∧ ops = tr.map Prod.snd ++ rest
  have hstart : inv ops (.init ctrl data release) := ⟨[], .refl, rfl⟩
  refine (Run.along (fun op => op) inv ?_ hstart).1
  rintro op rest s ⟨tr, hr, hops⟩
  refine ⟨?_, ?_⟩
  · have hlen := congrArg List.length hops
    simp only [List.length_append, List.length_map, List.length_cons] at hlen
    obtain ⟨M, hM, hle, -⟩ := run_represents hr (by omega)
    have hpresent : ∀ key, op = .remove key → key ∈ M.keys := by
      rintro key rfl
      obtain ⟨M', hM', hkey⟩ := h tr s key rest hr hops
      rwa [hM.unique hM']
    have hbound : M.bindings.length ≤ fuel := by omega
    obtain ⟨s', hs⟩ := hM.enabled hbound hpresent
    exact ⟨op, s', rfl, hs⟩
  · rintro l s' rfl hs
    refine ⟨tr ++ [(s, l)], hr.trans (.single hs), ?_⟩
    rw [hops, List.map_append, List.append_assoc]
    rfl

/-- A sequence of calls that can all be made removes only keys that are present. -/
theorem RemovesPresent.of_run {fuel ctrl : Nat} {data release : Option Nat}
    {tr : List (RpcState × RpcOp)} {s : RpcState}
    (hr : Run (RpcState.step fuel) (.init ctrl data release) tr s) (hfuel : tr.length ≤ fuel) :
    RemovesPresent fuel ctrl data release (tr.map Prod.snd) := by
  intro tr₁ s₁ key rest hr₁ hops
  obtain ⟨s', hs⟩ := hr.enabled _ (hr₁.mem_of_labels hr hops)
  have hlen := congrArg List.length hops
  simp only [List.length_append, List.length_map, List.length_cons] at hlen
  obtain ⟨M, hM, hle, -⟩ := run_represents hr₁ (by omega)
  refine ⟨M, hM, ?_⟩
  by_contra hkey
  rw [RpcState.step, hM.remove_absent (by omega) hkey] at hs
  cases hs

theorem rpc_handles_exact (fuel ctrl : Nat) (data release : Option Nat) (ops : List RpcOp)
    (hfuel : ops.length ≤ fuel) :
    IsFiniteMap fuel ctrl data release ops ↔ RemovesPresent fuel ctrl data release ops := by
  constructor
  · rintro ⟨tr, s, hr, rfl, -, -⟩
    rw [List.length_map] at hfuel
    exact .of_run hr hfuel
  · intro h
    obtain ⟨tr, s, hr, rfl⟩ := h.run hfuel
    rw [List.length_map] at hfuel
    refine ⟨tr, s, hr, rfl, ?_, ?_⟩
    · intro x hx
      obtain ⟨tr₁, tr₂, rfl, hr₁⟩ := hr.upto hx
      rw [List.length_append, List.length_cons] at hfuel
      obtain ⟨M, hM, hle, -⟩ := run_represents hr₁ (by omega)
      obtain ⟨s', hs⟩ := hr.enabled x hx
      exact hM.callExact (by omega) hs
    · obtain ⟨M, hM, hle, hperm⟩ := run_represents hr hfuel
      have hbound : M.bindings.length ≤ fuel := by omega
      obtain ⟨heap, calls, hput, hfree, hleft⟩ := hM.put hbound
      refine ⟨heap, calls, hput, hfree, ?_⟩
      rw [released_append, hleft]
      exact hperm

theorem mallocAt_fresh (p : Nat) (heap : RpcHeap) (q : Nat)
    (h : (if (heap p).isNone then some p else none) = some q) : heap q = none := by
  split at h
  · rename_i hp
    cases h
    exact Option.isNone_iff_eq_none.mp hp
  · cases h

/-- An insertion for which `malloc` has memory at `p` only. -/
def mallocAt (p : Nat) : InsertEnv :=
  ⟨fun heap => if (heap p).isNone then some p else none, none, mallocAt_fresh p⟩

/-- Key 1 is inserted twice, the second time in vain, and removed from before key 2. -/
def exampleOps : List RpcOp :=
  [.insert 1#32 (some 10) (some 20) (mallocAt 100), .insert 2#32 (some 11) (some 20) (mallocAt 200),
    .insert 1#32 (some 12) (some 20) (mallocAt 300), .remove 1#32]

theorem rpc_handles_exact_two : exampleOps.length ≤ 4 ∧ IsFiniteMap 4 0 none none exampleOps := by
  obtain ⟨tr, s, hr, htr, -, -⟩ := follow_trace (RpcState.step 4) (fun _ _ => true)
    (.init 0 none none) exampleOps (fun s => s.ref.handles = some 200) (by decide +kernel)
  refine ⟨by decide, (rpc_handles_exact 4 0 none none exampleOps (by decide)).mpr ?_⟩
  have hlen := congrArg List.length htr
  rw [List.length_map] at hlen
  rw [← htr]
  exact .of_run hr hlen.le

/-- Both branches of `_nvm_rpc_handle_remove` follow `curr`: without a handle in the list, and with
one that has another key. -/
theorem rpc_remove_faults :
    (RpcState.init 0 none none).nvmRpcHandleRemove 2 7#32 = .error .null ∧
      (∃ s, (RpcState.init 0 none none).nvmRpcHandleInsert 2 1#32 (some 10) (some 20)
          (mallocAt 100) = .ok (none, s) ∧ s.nvmRpcHandleRemove 2 7#32 = .error .null) ∧
      ¬ IsFiniteMap 2 0 none none [.remove 7#32] := by
  refine ⟨rfl, ⟨_, rfl, rfl⟩, ?_⟩
  rintro ⟨tr, s, hr, hops, -, -⟩
  cases hr with
  | refl => cases hops
  | cons h _ =>
    obtain ⟨rfl, -⟩ := List.cons.inj hops
    cases h

end Rpc
end Nvm
end UGDS
