import UGDS.Drv.Failed

/-!
# UGDS.Drv.Dmabuf

The dma-buf resources of the kernel module over whole runs of ioctls and `clear_map_list`.

`DmabufRun` adds to the module's state the log of all calls that take or give back a dma-buf
reference, an attachment, a pin or a mapped SG table, each with the mapping that it was made for.
Read strictly (`Lib.stack`), the calls for one mapping give back what was taken last first: the SG
table is unmapped, then the attachment is unpinned and detached, then the reference is put.

* `step_balanced`: every ioctl keeps the balance, and so does `clear_map_list`.
* `dmabuf_balanced`: after every ioctl of every run each dma-buf mapping in `device_list` holds one of
  each and nothing else is held; after `clear_map_list` nothing is.
-/

namespace UGDS
namespace Drv

open Lib Nvm

structure DmabufRun where
  k : KState
  log : List (Nat × Op Res)

/-- The dma-buf calls of `unmap_and_release` on a mapping in a list. -/
def Map.dmabufReleaseCalls (m : Map) : List (Nat × Op Res) :=
  if m.release = some .dmabufMemory then releaseDmabufMemoryCalls.map (Prod.mk m.id) else []

/-- The dma-buf calls of `map_ioctl`. -/
def KState.dmabufLog (P : Nat) (k : KState) (current : Task) (pdev : Nat) :
    Request → List (Nat × Op Res)
  | .mapHost .. => []
  | .mapDevice .. => []
  | .mapDmabuf copyIn copyOut req env =>
    (dmabufCalls P k current pdev copyIn copyOut req env).map (Prod.mk k.nextId)
  | .unmap copyIn addr =>
    if !copyIn then []
    else
      match mapFind k.hostList current addr with
      | some m => m.dmabufReleaseCalls
      | none =>
        match mapFind k.deviceList current addr with
        | some m => m.dmabufReleaseCalls
        | none => []

namespace DmabufRun

def init (nCtrls : Nat) : DmabufRun := ⟨.init nCtrls, []⟩

/-- `unmap_and_release` of a mapping in `device_list`. -/
def unmapAndRelease (t : DmabufRun) (m : Map) : DmabufRun :=
  ⟨{ t.k with deviceList := listRemove t.k.deviceList m, released := t.k.released ++ [m] },
    t.log ++ m.dmabufReleaseCalls⟩

/-- The loop of `clear_map_list` on `device_list`, `n` more times at most. -/
def clearLoop : Nat → DmabufRun → DmabufRun
  | 0, t => t
  | n + 1, t =>
    match t.k.deviceList with
    | [] => t
    | m :: _ => clearLoop n (t.unmapAndRelease m)

/-- `clear_map_list(&device_list)`. Each round removes a mapping. -/
def clearMapList (t : DmabufRun) : DmabufRun := clearLoop t.k.deviceList.length t

inductive Label where
  | ioctl (c : Ioctl)
  | clear

def step (P : Nat) (t : DmabufRun) : Label → Option DmabufRun
  | .ioctl c =>
    some ⟨(t.k.mapIoctl P c.current c.pdev c.req).k,
      t.log ++ t.k.dmabufLog P c.current c.pdev c.req⟩
  | .clear => some t.clearMapList

/-- The calls for mapping `n`. -/
def callsFor (n : Nat) (log : List (Nat × Op Res)) : List (Op Res) :=
  (log.filter fun x => x.1 = n).map Prod.snd

/-- The resources that are held for mapping `n` when `device_list` is `l`. -/
def expected (l : List Map) (n : Nat) : List Res :=
  if ∃ m ∈ l, m.id = n ∧ m.release = some .dmabufMemory then dmabufRes else []

/-- The calls for each mapping gave back in the opposite order what was taken, and what is still held
is one of each for every dma-buf mapping in `device_list`. -/
structure Balanced (t : DmabufRun) : Prop where
  lists : t.k.Inv
  host : ∀ m ∈ t.k.hostList, m.release ≠ some .dmabufMemory
  held : ∀ n, stack [] (callsFor n t.log) = some (expected t.k.deviceList n)

/-! ## Calls for one mapping -/

theorem callsFor_append (n : Nat) (a b : List (Nat × Op Res)) :
    callsFor n (a ++ b) = callsFor n a ++ callsFor n b := by
  simp [callsFor]

theorem callsFor_map (n id : Nat) (calls : List (Op Res)) :
    callsFor n (calls.map (Prod.mk id)) = if id = n then calls else [] := by
  by_cases h : id = n
  · subst h
    simp [callsFor, List.filter_map, Function.comp_def]
  · simp [callsFor, List.filter_map, Function.comp_def, h]

theorem expected_append (l : List Map) (m : Map) (h : ∀ x ∈ l, x.id ≠ m.id) (n : Nat) :
    expected (l ++ [m]) n =
      if m.id = n then (if m.release = some .dmabufMemory then dmabufRes else [])
      else expected l n := by
  unfold expected
  by_cases hid : m.id = n
  · subst hid
    rw [if_pos rfl]
    refine if_congr ?_ rfl rfl
    constructor
    · rintro ⟨x, hx, hxid, hxr⟩
      rcases List.mem_append.mp hx with hx | hx
      · exact absurd hxid (h x hx)
      · rwa [List.mem_singleton.mp hx] at hxr
    · intro hr
      exact ⟨m, List.mem_append_right _ (List.mem_singleton_self _), rfl, hr⟩
  · rw [if_neg hid]
    refine if_congr ?_ rfl rfl
    constructor
    · rintro ⟨x, hx, hxid, hxr⟩
      rcases List.mem_append.mp hx with hx | hx
      · exact ⟨x, hx, hxid, hxr⟩
      · rw [List.mem_singleton.mp hx] at hxid
        exact absurd hxid hid
    · rintro ⟨x, hx, hxid, hxr⟩
      exact ⟨x, List.mem_append_left _ hx, hxid, hxr⟩

theorem expected_remove (l : List Map) (m : Map) (n : Nat) :
    expected (listRemove l m) n = if m.id = n then [] else expected l n := by
  unfold expected
  by_cases hid : m.id = n
  · subst hid
    rw [if_pos rfl, if_neg]
    rintro ⟨x, hx, hxid, -⟩
    have := (List.mem_filter.mp hx).2
    simp [hxid] at this
  · rw [if_neg hid]
    refine if_congr ?_ rfl rfl
    constructor
    · rintro ⟨x, hx, hxid, hxr⟩
      exact ⟨x, (List.mem_filter.mp hx).1, hxid, hxr⟩
    · rintro ⟨x, hx, hxid, hxr⟩
      refine ⟨x, List.mem_filter.mpr ⟨hx, ?_⟩, hxid, hxr⟩
      have : x.id ≠ m.id := by
        intro he
        exact hid (he.symm.trans hxid)
      simpa using this

theorem expected_of_mem {l : List Map} {m : Map} (hnd : (l.map Map.id).Nodup) (hm : m ∈ l) :
    expected l m.id = if m.release = some .dmabufMemory then dmabufRes else [] := by
  refine if_congr ?_ rfl rfl
  constructor
  · rintro ⟨x, hx, hxid, hxr⟩
    rwa [← List.inj_on_of_nodup_map hnd hx hm hxid]
  · intro hr
    exact ⟨m, hm, rfl, hr⟩

/-! ## Steps -/

section Step

variable {t : DmabufRun}

/-- Calls for a mapping that does not hold anything yet, or for none of the mappings. -/
theorem held_append {t : DmabufRun} {l : List Map} {id : Nat} {calls : List (Op Res)} {res : List Res}
    (h : ∀ n, stack [] (callsFor n t.log) = some (expected t.k.deviceList n))
    (hno : expected t.k.deviceList id = []) (hcalls : stack [] calls = some res)
    (hl : ∀ n, expected l n = if id = n then res else expected t.k.deviceList n) :
    ∀ n, stack [] (callsFor n (t.log ++ calls.map (Prod.mk id))) = some (expected l n) := by
  intro n
  rw [callsFor_append, callsFor_map, stack_append, h n, Option.bind_some, hl n]
  by_cases hid : id = n
  · subst hid
    rw [if_pos rfl, if_pos rfl, hno, hcalls]
  · rw [if_neg hid, if_neg hid]
    rfl

theorem deviceList_nodup (h : t.Balanced) : (t.k.deviceList.map Map.id).Nodup := by
  have := h.lists.nodup
  rw [KState.all, List.map_append] at this
  exact (List.nodup_append.mp this).2.1

/-- `unmap_and_release` gives back what its mapping holds. -/
theorem unmapAndRelease_balanced {m : Map} (h : t.Balanced) (hm : m ∈ t.k.deviceList) :
    (t.unmapAndRelease m).Balanced := by
  have hnd := deviceList_nodup h
  refine ⟨?_, h.host, ?_⟩
  · exact h.lists.sub (List.Sublist.append (List.Sublist.refl _) List.filter_sublist) (Nat.le_refl _)
  · intro n
    simp only [unmapAndRelease, callsFor_append, stack_append, h.held n, Option.bind_some,
      expected_remove, Map.dmabufReleaseCalls]
    by_cases hid : m.id = n
    · subst hid
      rw [expected_of_mem hnd hm, if_pos rfl]
      by_cases hr : m.release = some .dmabufMemory
      · rw [if_pos hr, if_pos hr, callsFor_map, if_pos rfl, releaseDmabuf_stack]
      · rw [if_neg hr, if_neg hr]
        rfl
    · rw [if_neg hid]
      by_cases hr : m.release = some .dmabufMemory
      · rw [if_pos hr, callsFor_map, if_neg hid]
        rfl
      · rw [if_neg hr]
        rfl

theorem clearLoop_balanced (n : Nat) :
    ∀ {t : DmabufRun}, t.Balanced → t.k.deviceList.length ≤ n →
      (clearLoop n t).Balanced ∧ (clearLoop n t).k.deviceList = [] := by
  induction n with
  | zero =>
    intro t h hlen
    exact ⟨h, List.length_eq_zero_iff.mp (Nat.le_zero.mp hlen)⟩
  | succ n ih =>
    intro t h hlen
    unfold clearLoop
    split
    · rename_i hl
      exact ⟨h, hl⟩
    · rename_i m rest hl
      have hm : m ∈ t.k.deviceList := by rw [hl]; exact List.mem_cons_self
      refine ih (unmapAndRelease_balanced h hm) ?_
      -- at least the mapping itself is removed
      have hdrop : (listRemove (m :: rest) m).length ≤ rest.length := by
        simp only [listRemove, List.filter_cons, ne_eq, not_true_eq_false, decide_false,
          Bool.false_eq_true, if_false]
        exact List.length_filter_le _ _
      simp only [unmapAndRelease, hl] at hlen ⊢
      simp only [List.length_cons] at hlen
      omega

theorem mapFind_mem {l : List Map} {current : Task} {addr : Nat} {m : Map}
    (h : mapFind l current addr = some m) : m ∈ l := List.mem_of_find?_eq_some h

/-- A host mapping has no dma-buf. -/
theorem mapUserspace_release {P : Nat} {env : HostEnv} {id : Nat} {current : Task}
    {pdev vaddr nPages : Nat} {m : Map}
    (h : mapUserspace P env id current pdev vaddr nPages = .ok m) :
    m.release ≠ some .dmabufMemory := by
  obtain ⟨n, md, rfl, -, ⟨-, rfl⟩ | ⟨-, rfl⟩⟩ := mapUserspace_made h
  · intro hr
    cases hr
  · intro hr
    cases hr

theorem mapDeviceMemory_release {env : GpuEnv} {nCtrls id : Nat} {current : Task}
    {pdev vaddr nPages : Nat} {m : Map}
    (h : mapDeviceMemory env nCtrls id current pdev vaddr nPages = .ok m) :
    m.release ≠ some .dmabufMemory := by
  obtain ⟨entries, addrs, -, -, rfl⟩ := mapDeviceMemory_made h
  intro hr
  cases hr

/-- The next mapping is not in the list, and holds nothing. -/
theorem fresh_id (h : t.Balanced) : ∀ x ∈ t.k.deviceList, x.id ≠ t.k.nextId := by
  intro x hx
  exact Nat.ne_of_lt (h.lists.bound x (List.mem_append_right _ hx))

theorem expected_fresh (h : t.Balanced) : expected t.k.deviceList t.k.nextId = [] := by
  refine if_neg ?_
  rintro ⟨x, hx, hxid, -⟩
  exact fresh_id h x hx hxid

/-- A GPU mapping does not change what is held. -/
theorem expected_device (h : t.Balanced) {m : Map} (hid : m.id = t.k.nextId)
    (hr : m.release ≠ some .dmabufMemory) (n : Nat) :
    expected (t.k.deviceList ++ [m]) n = expected t.k.deviceList n := by
  rw [expected_append _ _ (by rw [hid]; exact fresh_id h), if_neg hr]
  by_cases hn : m.id = n
  · rw [if_pos hn, ← hn, hid, expected_fresh h]
  · rw [if_neg hn]

/-- Only a host request adds to `host_list`. -/
theorem ioctl_host (P : Nat) (h : t.Balanced) (current : Task) (pdev : Nat) (req : Request) :
    ∀ m ∈ (t.k.mapIoctl P current pdev req).k.hostList, m.release ≠ some .dmabufMemory := by
  cases req with
  | mapHost copyIn copyOut vaddr nPages env =>
    simp only [KState.mapIoctl]
    split
    · exact h.host
    split
    · exact h.host
    rename_i m hm
    have hnew : ∀ x ∈ t.k.hostList ++ [m], x.release ≠ some .dmabufMemory := by
      intro x hx
      rcases List.mem_append.mp hx with hx | hx
      · exact h.host x hx
      · rw [List.mem_singleton.mp hx]
        exact mapUserspace_release hm
    simp only [KState.insertHost]
    split <;> exact hnew
  | mapDevice copyIn copyOut vaddr nPages env =>
    simp only [KState.mapIoctl]
    split
    · exact h.host
    split
    · exact h.host
    simp only [KState.insertDevice]
    split <;> exact h.host
  | mapDmabuf copyIn copyOut req env =>
    rw [(@dmabuf_calls_stack P t.k current pdev copyOut req env copyIn).1]
    exact h.host
  | unmap copyIn addr =>
    simp only [KState.mapIoctl]
    split
    · exact h.host
    simp only [KState.unmap]
    split
    · intro x hx
      exact h.host x (List.mem_filter.mp hx).1
    · split <;> exact h.host

theorem ioctl_held (P : Nat) (h : t.Balanced) (current : Task) (pdev : Nat) (req : Request) :
    ∀ n, stack [] (callsFor n (t.log ++ t.k.dmabufLog P current pdev req)) =
      some (expected (t.k.mapIoctl P current pdev req).k.deviceList n) := by
  cases req with
  | mapHost copyIn copyOut vaddr nPages env =>
    have hdev : (t.k.mapIoctl P current pdev
        (.mapHost copyIn copyOut vaddr nPages env)).k.deviceList = t.k.deviceList := by
      simp only [KState.mapIoctl]
      split
      · rfl
      split
      · rfl
      simp only [KState.insertHost]
      split <;> rfl
    simp only [hdev, KState.dmabufLog, List.append_nil]
    exact h.held
  | mapDevice copyIn copyOut vaddr nPages env =>
    simp only [KState.dmabufLog, List.append_nil, KState.mapIoctl]
    split
    · exact h.held
    split
    · exact h.held
    rename_i m hm
    have hsame := expected_device h (mapDeviceMemory_madeFor hm).id_eq (mapDeviceMemory_release hm)
    intro n
    simp only [KState.insertDevice]
    split <;> exact (h.held n).trans (congrArg some (hsame n).symm)
  | mapDmabuf copyIn copyOut req env =>
    obtain ⟨-, ⟨m, hr, hid, -, hdev, hst⟩ | ⟨-, hdev, hst⟩⟩ :=
      @dmabuf_calls_stack P t.k current pdev copyOut req env copyIn
    · rw [hdev]
      refine held_append h.held (expected_fresh h) hst ?_
      intro n
      rw [expected_append _ _ (by rw [hid]; exact fresh_id h), if_pos hr, hid]
    · rw [hdev]
      refine held_append h.held (expected_fresh h) hst ?_
      intro n
      split
      · rename_i hn
        rw [← hn, expected_fresh h]
      · rfl
  | unmap copyIn addr =>
    simp only [KState.mapIoctl, KState.dmabufLog]
    split
    · rw [List.append_nil]
      exact h.held
    simp only [KState.unmap]
    cases hh : mapFind t.k.hostList current addr with
    | some m =>
      simp only [Map.dmabufReleaseCalls, if_neg (h.host m (mapFind_mem hh)), List.append_nil]
      exact h.held
    | none =>
      cases hd : mapFind t.k.deviceList current addr with
      | some m => exact (unmapAndRelease_balanced h (mapFind_mem hd)).held
      | none =>
        simp only [List.append_nil]
        exact h.held

theorem step_balanced {j : Nat} (hj : j ≤ 64) {l : Label} {t' : DmabufRun} (h : t.Balanced)
    (hs : t.step (2 ^ j) l = some t') : t'.Balanced := by
  cases l with
  | ioctl c =>
    cases hs
    exact ⟨KState.step_inv hj h.lists (c := c) rfl, ioctl_host _ h c.current c.pdev c.req,
      ioctl_held _ h c.current c.pdev c.req⟩
  | clear =>
    cases hs
    exact (clearLoop_balanced _ h (Nat.le_refl _)).1

theorem init_balanced (nCtrls : Nat) : (init nCtrls).Balanced := by
  refine ⟨⟨?_, ?_, ?_⟩, ?_, ?_⟩
  · simp [init, KState.init, KState.all]
  · simp [init, KState.init, KState.all]
  · simp [init, KState.init, KState.all]
  · simp [init, KState.init]
  · intro n
    simp [init, KState.init, callsFor, expected, stack]

end Step

end DmabufRun

open DmabufRun

/-- In every state that ioctls of any threads lead to, whatever the dma-buf calls answer: each dma-buf
mapping in `device_list` holds a reference, an attachment, a pin and a mapped SG table, nothing else
is held, and everything given back was given back once, in the opposite order. After `clear_map_list`
nothing is held. -/
theorem dmabuf_balanced (j : Nat) (hj : j ≤ 64) (nCtrls : Nat) {tr : List (DmabufRun × Label)}
    {t : DmabufRun} (hr : Run (DmabufRun.step (2 ^ j)) (.init nCtrls) tr t) :
    (t.k.deviceList.map Map.id).Nodup ∧
      (∀ n, stack [] (callsFor n t.log) = some (expected t.k.deviceList n)) ∧
      t.clearMapList.k.deviceList = [] ∧ ∀ n, stack [] (callsFor n t.clearMapList.log) = some [] := by
  have h : t.Balanced :=
    Run.inv_all Balanced (fun _ _ _ hb hs => step_balanced hj hb hs) hr (init_balanced nCtrls)
  obtain ⟨hb, hempty⟩ := clearLoop_balanced _ h (Nat.le_refl _)
  refine ⟨deviceList_nodup h, h.held, hempty, ?_⟩
  intro n
  have hn := hb.held n
  rw [hempty] at hn
  exact hn

/-- A request for one page of a dma-buf at offset 0. -/
def dmabufRequest (copyOut invalid : Bool) : Label :=
  .ioctl ⟨⟨1, 1⟩, 0, .mapDmabuf true copyOut ⟨0x10000, 3, 0, 4096, 1, 0x7000, by decide⟩
    ⟨true, true, none, none, none, .ok [(0x80000000#64, 4096)], invalid⟩⟩

/-- A mapping, a second request whose copy fails, and one that is invalidated. -/
theorem dmabuf_balanced_three :
    ∃ tr t, Run (DmabufRun.step (2 ^ 12)) (.init 1) tr t ∧
      stack [] (callsFor 0 t.log) = some dmabufRes ∧ stack [] (callsFor 1 t.log) = some [] ∧
      stack [] (callsFor 0 t.clearMapList.log) = some [] := by
  obtain ⟨tr, t, hr, -, hp⟩ := follow_run (DmabufRun.step (2 ^ 12)) (fun _ _ => true) (.init 1)
    [dmabufRequest true false, dmabufRequest false false, dmabufRequest true true]
    (fun t => decide (expected t.k.deviceList 0 = dmabufRes ∧ expected t.k.deviceList 1 = []))
    (by decide +kernel)
  have hexp := of_decide_eq_true hp
  obtain ⟨-, hheld, -, hclear⟩ := dmabuf_balanced 12 (by decide) 1 hr
  exact ⟨tr, t, hr, by rw [hheld, hexp.1], by rw [hheld, hexp.2], hclear 0⟩

end Drv
end UGDS
