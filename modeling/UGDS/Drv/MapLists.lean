import UGDS.Drv.Ioctl
import UGDS.Drv.Lists

/-!
# UGDS.Drv.MapLists

The lists of mappings in memory. `UGDS.Drv.Ioctl` has `host_list` and `device_list` as sequences; here
an ioctl makes the calls of `list.c` that the source makes for it.

* `KState.listOps`: the calls of an ioctl.
* `ListedIn.ioctl`: they do to the lists what the ioctl does to the sequences.
* `ioctl_lists`: after every run of ioctls the memory holds the two sequences.
-/

namespace UGDS
namespace Drv

open Lib Nvm

/-- `host_list` and `device_list`. -/
def hostHead : Nat := 0

def deviceHead : Nat := 1

/-- The node of a mapping that was just made, from `create_descriptor` to `list_insert`. -/
def makeOps (l : Nat) (m : Map) : List ListOp := [.nodeInit m.id, .insert l m.id]

/-- The calls of `map_ioctl` on the lists. A descriptor that is given up before it is inserted does
not touch them. A dma-buf that is given up later was inserted, and `unmap_and_release` takes it out. -/
def KState.listOps (P : Nat) (k : KState) (c : Ioctl) : List ListOp :=
  match c.req with
  | .mapHost copyIn _ vaddr nPages env =>
    if !copyIn then []
    else
      match mapUserspace P env k.nextId c.current c.pdev vaddr nPages with
      | .error _ => []
      | .ok m => makeOps hostHead m
  | .mapDevice copyIn _ vaddr nPages env =>
    if !copyIn then []
    else
      match mapDeviceMemory env k.nCtrls k.nextId c.current c.pdev vaddr nPages with
      | .error _ => []
      | .ok m => makeOps deviceHead m
  | .mapDmabuf copyIn copyOut req env =>
    if !copyIn then []
    else if req.size = 0 ∨ req.size % P ≠ 0 then []
    else if req.gpuPtr = 0 ∨ req.gpuPtr % P ≠ 0 then []
    else if req.ioaddrs = 0 ∨ req.capacity = 0 then []
    else if req.offset ≠ 0 ∧ req.offset % P ≠ 0 then []
    else if req.fd < 0 then []
    else
      match mapDmabuf P env k.nextId c.current c.pdev req.gpuPtr req.offset (req.size / P)
          req.capacity with
      | .error _ => []
      | .ok m =>
        if env.invalid || m.addrs.length > req.capacity || !copyOut then
          makeOps deviceHead m ++ [.remove m.id]
        else makeOps deviceHead m
  | .unmap copyIn addr =>
    if !copyIn then []
    else
      match mapFind k.hostList c.current addr with
      | some m => [.remove m.id]
      | none =>
        match mapFind k.deviceList c.current addr with
        | some m => [.remove m.id]
        | none => []

/-- What an ioctl does to the lists, and the calls it makes for that. -/
inductive KState.Did (k : KState) : List ListOp → KState → Prop where
  | nothing : Did k [] k
  | host {m : Map} : m.id = k.nextId → Did k (makeOps hostHead m)
      { k with hostList := k.hostList ++ [m], nextId := k.nextId + 1 }
  | device {m : Map} : m.id = k.nextId → Did k (makeOps deviceHead m)
      { k with deviceList := k.deviceList ++ [m], nextId := k.nextId + 1 }
  | undone {m : Map} : m.id = k.nextId → Did k (makeOps deviceHead m ++ [.remove m.id])
      { k with nextId := k.nextId + 1, released := k.released ++ [m] }
  | hostRemoved {m : Map} : m ∈ k.hostList → Did k [.remove m.id]
      { k with hostList := listRemove k.hostList m, released := k.released ++ [m] }
  | deviceRemoved {m : Map} : m ∈ k.deviceList → Did k [.remove m.id]
      { k with deviceList := listRemove k.deviceList m, released := k.released ++ [m] }

theorem KState.mapIoctl_did {j : Nat} (hj : j ≤ 64) (k : KState) (c : Ioctl) :
    k.Did (k.listOps (2 ^ j) c) (k.mapIoctl (2 ^ j) c.current c.pdev c.req).k := by
  obtain ⟨current, pdev, req⟩ := c
  cases req with
  | mapHost copyIn copyOut vaddr nPages env =>
    simp only [mapIoctl, listOps]
    split
    · exact .nothing
    cases hm : mapUserspace (2 ^ j) env k.nextId current pdev vaddr nPages with
    | error e => exact .nothing
    | ok m =>
      have hdid := Did.host (mapUserspace_madeFor (Nat.two_pow_pos j) hm).id_eq
      cases copyOut <;> exact hdid
  | mapDevice copyIn copyOut vaddr nPages env =>
    simp only [mapIoctl, listOps]
    split
    · exact .nothing
    cases hm : mapDeviceMemory env k.nCtrls k.nextId current pdev vaddr nPages with
    | error e => exact .nothing
    | ok m =>
      have hdid := Did.device (mapDeviceMemory_madeFor hm).id_eq
      cases copyOut <;> exact hdid
  | mapDmabuf copyIn copyOut req env =>
    simp only [mapIoctl, listOps]
    split
    · exact .nothing
    split
    · exact .nothing
    split
    · exact .nothing
    rename_i hptr
    split
    · exact .nothing
    split
    · exact .nothing
    split
    · exact .nothing
    cases hm : mapDmabuf (2 ^ j) env k.nextId current pdev req.gpuPtr req.offset (req.size / 2 ^ j)
        req.capacity with
    | error e => exact .nothing
    | ok m =>
      have hid := (mapDmabuf_madeFor hj req.gpuPtr_lt (by omega) hm).id_eq
      simp only [insertDmabuf]
      by_cases hinv : env.invalid = true
      · simpa [hinv, fail] using Did.undone hid
      by_cases hcap : m.addrs.length > req.capacity
      · simpa [hinv, hcap, fail] using Did.undone hid
      cases copyOut with
      | false => simpa [hinv, hcap, fail] using Did.undone hid
      | true => simpa [hinv, hcap] using Did.device hid
  | unmap copyIn addr =>
    simp only [mapIoctl, listOps, unmap]
    split
    · exact .nothing
    cases hh : mapFind k.hostList current addr with
    | some m => exact .hostRemoved (List.mem_of_find?_eq_some hh)
    | none =>
      cases hd : mapFind k.deviceList current addr with
      | some m => exact .deviceRemoved (List.mem_of_find?_eq_some hd)
      | none => exact .nothing

/-! ## The sequences -/

section Lists

variable {A A' : Lists} {l n : Nat} {s : List Nat}

/-- A node in no list is initialised and inserted. -/
theorem Lists.run_make (hl : A.seq l = some s) (hn : ¬(A.place n).isWithin) :
    ∃ tr A', Run Lists.step A tr A' ∧ tr.map Prod.snd = [.nodeInit n, .insert l n] ∧
      A'.seq = Function.update A.seq l (some (s ++ [n])) ∧
      A'.place = Function.update A.place n (.within l) := by
  have hfree : ¬(A.place n).isWithin ∧ ¬Place.free.isWithin := ⟨hn, Place.not_isWithin_free⟩
  have hin : ((A.setPlace n .free hfree).seq l).isSome ∧
      ¬((A.setPlace n .free hfree).place n).isWithin := by
    simp [Lists.setPlace, hl, Place.isWithin]
  have hinit : A.step (.nodeInit n) = some (A.setPlace n .free hfree) := dif_pos hfree
  have hinsert : (A.setPlace n .free hfree).step (.insert l n) =
      some ((A.setPlace n .free hfree).insert l n hin) := dif_pos hin
  refine ⟨_, _, .cons hinit (.single hinsert), rfl, ?_, ?_⟩
  · simp [Lists.insert, Lists.setPlace, hl]
  · simp [Lists.insert, Lists.setPlace]

theorem Lists.step_remove (hl : A.seq l = some s) (hn : n ∈ s) :
    ∃ A', A.step (.remove n) = some A' ∧ A'.seq = Function.update A.seq l (some (s.erase n)) ∧
      A'.place = Function.update A.place n .free := by
  have hin : A.place n = .within l := (A.placed.within_iff n l).mpr ⟨s, hl, hn⟩
  refine ⟨A.remove n, if_pos (by rw [hin]; exact Place.noConfusion), ?_, rfl⟩
  funext i
  simp only [Lists.remove, hin, Place.within.injEq]
  by_cases hi : l = i
  · subst hi
    rw [if_pos rfl, hl, Function.update_self, Option.map_some]
  · rw [if_neg hi, Function.update_of_ne (Ne.symm hi)]

end Lists

theorem map_id_listRemove {list : List Map} (h : (list.map Map.id).Nodup) (m : Map) :
    (listRemove list m).map Map.id = (list.map Map.id).erase m.id := by
  rw [h.erase_eq_filter, List.filter_map, listRemove]
  refine congrArg (List.map Map.id) (List.filter_congr fun x _ => ?_)
  rcases eq_or_ne x.id m.id with hx | hx <;> simp [hx]

/-- The lists are those of `k`, and no node is in a list before it is made. -/
structure ListedIn (A : Lists) (k : KState) : Prop where
  host : A.seq hostHead = some (k.hostList.map Map.id)
  device : A.seq deviceHead = some (k.deviceList.map Map.id)
  fresh : ∀ n, (A.place n).isWithin → n < k.nextId

namespace ListedIn

variable {A : Lists} {k k' : KState} {ops : List ListOp}

theorem hostHead_ne : hostHead ≠ deviceHead := by decide

theorem not_within (h : ListedIn A k) {m : Map} (hm : m.id = k.nextId) :
    ¬(A.place m.id).isWithin := by
  intro hin
  have := h.fresh _ hin
  omega

theorem fresh_insert (h : ListedIn A k) {n l : Nat} (hn : n = k.nextId) {i : Nat}
    (hi : (Function.update A.place n (.within l) i).isWithin) : i < k.nextId + 1 := by
  by_cases hin : i = n
  · omega
  · rw [Function.update_of_ne hin] at hi
    exact (h.fresh i hi).trans (Nat.lt_succ_self _)

theorem fresh_remove (h : ListedIn A k) {n i : Nat}
    (hi : (Function.update A.place n .free i).isWithin) : i < k.nextId := by
  by_cases hin : i = n
  · subst hin
    rw [Function.update_self] at hi
    exact absurd hi Place.not_isWithin_free
  · rw [Function.update_of_ne hin] at hi
    exact h.fresh i hi

theorem did (h : ListedIn A k) (hd : k.Did ops k') :
    ∃ tr A', Run Lists.step A tr A' ∧ tr.map Prod.snd = ops ∧ ListedIn A' k' := by
  cases hd with
  | nothing => exact ⟨[], A, .refl, rfl, h⟩
  | @host m hm =>
    obtain ⟨tr, A', hr, hops, hseq, hplace⟩ := Lists.run_make h.host (h.not_within hm)
    refine ⟨tr, A', hr, hops, ?_, ?_, fun i hi => h.fresh_insert hm (hplace ▸ hi)⟩
    · rw [hseq, Function.update_self, List.map_append]
      rfl
    · rw [hseq, Function.update_of_ne hostHead_ne.symm, h.device]
  | @device m hm =>
    obtain ⟨tr, A', hr, hops, hseq, hplace⟩ := Lists.run_make h.device (h.not_within hm)
    refine ⟨tr, A', hr, hops, ?_, ?_, fun i hi => h.fresh_insert hm (hplace ▸ hi)⟩
    · rw [hseq, Function.update_of_ne hostHead_ne, h.host]
    · rw [hseq, Function.update_self, List.map_append]
      rfl
  | @undone m hm =>
    have hnot := h.not_within hm
    obtain ⟨tr, A₁, hr, hops, hseq₁, hplace₁⟩ := Lists.run_make h.device hnot
    have hseq : A₁.seq deviceHead = some (k.deviceList.map Map.id ++ [m.id]) := by
      rw [hseq₁, Function.update_self]
    obtain ⟨A', hs, hseq', hplace'⟩ :=
      Lists.step_remove hseq (List.mem_append_right _ (List.mem_singleton_self m.id))
    refine ⟨tr ++ [(A₁, .remove m.id)], A', hr.trans (.single hs), by rw [List.map_append, hops]; rfl,
      ?_, ?_, fun i hi => ?_⟩
    · rw [hseq', Function.update_of_ne hostHead_ne, hseq₁, Function.update_of_ne hostHead_ne, h.host]
    · -- the node that was inserted is the one that is taken out
      have hnew := A.placed.not_mem hnot h.device
      rw [hseq', Function.update_self, List.erase_append_right _ hnew, List.erase_cons_head,
        List.append_nil]
    · rw [hplace', hplace₁, Function.update_idem] at hi
      exact (h.fresh_remove hi).trans (Nat.lt_succ_self _)
  | @hostRemoved m hm =>
    obtain ⟨A', hs, hseq, hplace⟩ := Lists.step_remove h.host (List.mem_map_of_mem hm)
    refine ⟨_, A', .single hs, rfl, ?_, ?_, fun i hi => h.fresh_remove (hplace ▸ hi)⟩
    · rw [hseq, Function.update_self, map_id_listRemove (A.placed.nodup _ _ h.host)]
    · rw [hseq, Function.update_of_ne hostHead_ne.symm, h.device]
  | @deviceRemoved m hm =>
    obtain ⟨A', hs, hseq, hplace⟩ := Lists.step_remove h.device (List.mem_map_of_mem hm)
    refine ⟨_, A', .single hs, rfl, ?_, ?_, fun i hi => h.fresh_remove (hplace ▸ hi)⟩
    · rw [hseq, Function.update_of_ne hostHead_ne, h.host]
    · rw [hseq, Function.update_self, map_id_listRemove (A.placed.nodup _ _ h.device)]

/-- One ioctl. -/
theorem ioctl (h : ListedIn A k) {j : Nat} (hj : j ≤ 64) {c : Ioctl}
    (hs : k.step (2 ^ j) c = some k') :
    ∃ tr A', Run Lists.step A tr A' ∧ tr.map Prod.snd = k.listOps (2 ^ j) c ∧ ListedIn A' k' := by
  cases hs
  exact h.did (k.mapIoctl_did hj c)

end ListedIn

/-! ## The memory -/

/-- The calls of a whole run, from the initialisation of the module on. -/
def runOps (P : Nat) (tr : List (KState × Ioctl)) : List ListOp :=
  [.init hostHead, .init deviceHead] ++ tr.flatMap fun x => x.1.listOps P x.2

theorem listed_of_run {j : Nat} (hj : j ≤ 64) {nCtrls : Nat} {tr : List (KState × Ioctl)} {k : KState}
    (hr : Run (KState.step (2 ^ j)) (.init nCtrls) tr k) :
    ∃ tr' A, Run Lists.step .empty tr' A ∧ tr'.map Prod.snd = runOps (2 ^ j) tr ∧ ListedIn A k := by
  let inv (tr : List (KState × Ioctl)) (k : KState) : Prop :=
    ∃ tr' A, Run Lists.step .empty tr' A ∧ tr'.map Prod.snd = runOps (2 ^ j) tr ∧ ListedIn A k
  have hstart : inv [] (.init nCtrls) := by
    refine ⟨_, (Lists.empty.init hostHead).init deviceHead, .cons rfl (.single rfl), rfl, ?_, ?_, ?_⟩
    · rfl
    · rfl
    · intro n hn
      simp [Lists.init, Lists.empty, Place.isWithin] at hn
  refine Run.inv_trace inv ?_ hr hstart
  rintro tr k c k' ⟨tr₁, A, hr₁, hops₁, h⟩ hs
  obtain ⟨tr₂, A', hr₂, hops₂, h'⟩ := h.ioctl hj hs
  refine ⟨tr₁ ++ tr₂, A', hr₁.trans hr₂, ?_, h'⟩
  rw [List.map_append, hops₁, hops₂, runOps, runOps, List.flatMap_append, List.append_assoc]
  simp

/-- From any memory, the calls of a run go through, and then the two lists in memory are those that
`map_find` goes through in the model: walking them ends and visits the mappings in order, and
`clear_map_list` releases each one once. -/
theorem ioctl_lists (mem : ListMem) {j : Nat} (hj : j ≤ 64) {nCtrls : Nat}
    {tr : List (KState × Ioctl)} {k : KState}
    (hr : Run (KState.step (2 ^ j)) (.init nCtrls) tr k) :
    ∃ mem', mem.execAll (runOps (2 ^ j) tr) = some mem' ∧
      mem'.IsSequence hostHead (k.hostList.map Map.id) ∧
      mem'.IsSequence deviceHead (k.deviceList.map Map.id) := by
  obtain ⟨tr', A, hr', hops, h⟩ := listed_of_run hj hr
  obtain ⟨mem', hexec, hrep⟩ := (Represents.empty mem).run hr'
  rw [hops] at hexec
  exact ⟨mem', hexec, hrep.isSequence h.host, hrep.isSequence h.device⟩

end Drv
end UGDS
