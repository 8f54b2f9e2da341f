import UGDS.Nvm.Dma

/-!
# UGDS.Nvm.Container

The memory behind a DMA handle (`dma.cpp`). `create_container` allocates room for one address per
controller page, with a size computed in 64 bits, and `populate_handle` fills it in a loop that also
looks for a break between neighbouring pages. `nvm_dma_remap` makes another handle on the same
mapping: the container is sized by the range that was mapped, and the loop runs over the addresses of
the handle that is copied, with the controller's page size on both sides.

Here the loop is the source's own, one turn at a time; `none` is an access outside the container or
the address list. The references that a handle holds are in `UGDS.Nvm.Refs`.

* `Container.populate_eq`: within the allocation the loop computes `populateHandle`.
* `DmaMap.Whole.run_handles`: all copies of a handle, and of its copies, are the same.
* `opened_preserves`: addresses, flag and copies of a handle, for every controller that was opened.
* `split_preserves`: the same for every page size, when the size of the container fits.
* `container_wraps`: a page size of one byte, which no controller has, overflows the size.
-/

namespace UGDS
namespace Nvm

open Lib

/-! ## The container -/

/-- `sizeof(struct container)`: the map, the fixed part of the handle, and its alignment. -/
def sizeofContainer : Nat := 64

/-- `offsetof(struct container, handle.ioaddrs)`. -/
def offsetofIoaddrs : Nat := 40

/-- `n_ctrl_pages`. -/
def nCtrlPages (ctrl : NvmCtrl) (pageSize nPages : Nat) : Nat :=
  u64 (pageSize * nPages) / ctrl.pageSize

/-- `struct map`, without its reference count: the controller and the range. -/
structure DmaMap where
  ctrl : NvmCtrl
  ctrlId : Nat
  va : VaRange
  remote : Bool

/-- `struct container` after `create_container`: the size of the allocation, the controller of its
map and the field of the handle that is set. -/
structure Container where
  size : Nat
  ctrl : Nat
  isLocal : Bool

/-- `create_container`. -/
def createContainer (malloc : Bool) (md : DmaMap) : Except Errno Container :=
  if !md.va.alignsWith md.ctrl then .error .EINVAL
  else if !malloc then .error .ENOMEM
  else .ok
    { size := u64 (sizeofContainer + u64 (nCtrlPages md.ctrl md.va.pageSize md.va.nPages * 8))
      ctrl := md.ctrlId
      isLocal := !md.remote }

/-- The loop of `populate_handle` from entry `i` on, over `n` more, in an allocation of `size`
bytes. `contiguous` is the flag so far and `out` the entries that are written. -/
def populateLoop (size cp vp : Nat) (ioaddrs : List (BitVec 64)) :
    (n i : Nat) → (contiguous : Bool) → (out : List (BitVec 64)) → Option (Bool × List (BitVec 64))
  | 0, _, contiguous, out => some (contiguous, out)
  | n + 1, i, contiguous, out =>
    match ioaddrs[u64 (i * cp) / vp]? with
    | none => none
    | some page =>
      let addr := page + BitVec.ofNat 64 (u64 (i * cp) % vp)
      if offsetofIoaddrs + 8 * i + 8 ≤ size then
        let follows := i = 0 || out.getD (i - 1) 0#64 + BitVec.ofNat 64 cp = addr
        populateLoop size cp vp ioaddrs n (i + 1) (contiguous && follows) (out ++ [addr])
      else none

/-- `populate_handle`. -/
def Container.populate (c : Container) (va : VaRange) (ctrl : NvmCtrl)
    (ioaddrs : List (BitVec 64)) : Option NvmDma :=
  (populateLoop c.size ctrl.pageSize va.pageSize ioaddrs
    (nCtrlPages ctrl va.pageSize va.nPages) 0 true []).map fun r =>
      { vaddr := va.vaddr
        isLocal := c.isLocal
        contiguous := r.1
        pageSize := ctrl.pageSize
        ioaddrs := r.2
        ctrl := c.ctrl }

/-- What `nvm_dma_remap` meets: the lock of the map, and the allocation of the container. -/
structure RemapEnv where
  lock : Option Errno
  malloc : Bool

/-- `nvm_dma_remap` of a handle on `md`. -/
def DmaMap.nvmDmaRemap (md : DmaMap) (env : RemapEnv) (other : NvmDma) :
    Option (Except Errno NvmDma) :=
  match env.lock with
  | some e => some (.error e)
  | none =>
    match createContainer env.malloc md with
    | .error e => some (.error e)
    | .ok c =>
      (c.populate ⟨md.va.vaddr, other.pageSize, other.nIoaddrs⟩ md.ctrl other.ioaddrs).map .ok

/-- One more call of `nvm_dma_remap`, on the handle at place `l.1` among those on `md`. -/
def DmaMap.step (md : DmaMap) (handles : List NvmDma) (l : Nat × RemapEnv) :
    Option (List NvmDma) :=
  match handles[l.1]? with
  | none => none
  | some other =>
    match md.nvmDmaRemap l.2 other with
    | none => none
    | some (.error _) => some handles
    | some (.ok handle) => some (handles ++ [handle])

/-! ## The loop -/

section Loop

variable {size cp vp : Nat} {ioaddrs : List (BitVec 64)}

/-- Neighbouring pages among the first `n` of the sequence `A` are `cp` bytes apart. -/
def follows (cp : Nat) (A : Nat → BitVec 64) (n : Nat) : Bool :=
  (List.range n).all fun i => i = 0 || A (i - 1) + BitVec.ofNat 64 cp = A i

theorem follows_succ (A : Nat → BitVec 64) (n : Nat) :
    follows cp A (n + 1) =
      (follows cp A n && (n = 0 || A (n - 1) + BitVec.ofNat 64 cp = A n)) := by
  simp only [follows, List.range_succ, List.all_append, List.all_cons, List.all_nil, Bool.and_true]

theorem follows_iff {A : Nat → BitVec 64} {n : Nat} :
    follows cp A n = true ↔ ∀ i < n, 0 < i → A (i - 1) + BitVec.ofNat 64 cp = A i := by
  simp only [follows, List.all_eq_true, List.mem_range, Bool.or_eq_true, decide_eq_true_eq]
  refine forall₂_congr fun i _ => ?_
  rw [Nat.pos_iff_ne_zero, or_iff_not_imp_left]

theorem follows_congr {A B : Nat → BitVec 64} {n : Nat} (h : ∀ i < n, A i = B i) :
    follows cp A n = follows cp B n := by
  rw [Bool.eq_iff_iff, follows_iff, follows_iff]
  refine forall₂_congr fun i hi => ?_
  rw [h i hi, h (i - 1) (by omega)]

/-- The previous entry, as the loop reads it. -/
theorem getD_map_range (A : Nat → BitVec 64) {i n : Nat} (h : i < n) :
    ((List.range n).map A).getD i 0#64 = A i := by
  rw [List.getD_eq_getElem?_getD, List.getElem?_map, List.getElem?_range h]
  rfl

/-- The loop invariant, by induction on the number `n` of entries left: the entries before `i` are
written, and the flag is about them. -/
theorem populateLoop_eq {n i : Nat} (hlt : (i + n) * cp < 2 ^ 64)
    (hread : ∀ k < i + n, k * cp / vp < ioaddrs.length)
    (hroom : offsetofIoaddrs + 8 * (i + n) ≤ size) :
    populateLoop size cp vp ioaddrs n i (follows cp (ctrlPageAddr cp vp ioaddrs) i)
        ((List.range i).map (ctrlPageAddr cp vp ioaddrs)) =
      some (follows cp (ctrlPageAddr cp vp ioaddrs) (i + n),
        (List.range (i + n)).map (ctrlPageAddr cp vp ioaddrs)) := by
  induction n generalizing i with
  | zero => rfl
  | succ n ih =>
    have hi : u64 (i * cp) = i * cp := by
      have : i * cp ≤ (i + (n + 1)) * cp := Nat.mul_le_mul_right _ (by omega)
      exact u64_of_lt (by omega)
    obtain ⟨page, hpage⟩ : ∃ page, ioaddrs[i * cp / vp]? = some page :=
      ⟨_, List.getElem?_eq_getElem (hread i (by omega))⟩
    have haddr : ctrlPageAddr cp vp ioaddrs i = page + BitVec.ofNat 64 (i * cp % vp) := by
      rw [ctrlPageAddr, List.getD_eq_getElem?_getD, hpage, Option.getD_some]
    have hfollows : (i = 0 || ((List.range i).map (ctrlPageAddr cp vp ioaddrs)).getD (i - 1) 0#64 +
          BitVec.ofNat 64 cp = ctrlPageAddr cp vp ioaddrs i : Bool) =
        (i = 0 || ctrlPageAddr cp vp ioaddrs (i - 1) + BitVec.ofNat 64 cp =
          ctrlPageAddr cp vp ioaddrs i : Bool) := by
      rcases Nat.eq_zero_or_pos i with rfl | hpos
      · rfl
      · rw [getD_map_range _ (by omega)]
    have hnext := ih (i := i + 1) (by rwa [Nat.add_right_comm]) (by rwa [Nat.add_right_comm])
      (by rwa [Nat.add_right_comm])
    simp only [populateLoop, hi, hpage, ← haddr]
    rw [if_pos (by omega), hfollows, ← follows_succ]
    rw [List.range_succ, List.map_append] at hnext
    rw [show i + (n + 1) = i + 1 + n by omega]
    exact hnext

theorem populateLoop_all {n : Nat} (hlt : n * cp < 2 ^ 64)
    (hread : ∀ k < n, k * cp / vp < ioaddrs.length) (hroom : offsetofIoaddrs + 8 * n ≤ size) :
    populateLoop size cp vp ioaddrs n 0 true [] =
      some (follows cp (ctrlPageAddr cp vp ioaddrs) n,
        (List.range n).map (ctrlPageAddr cp vp ioaddrs)) := by
  rw [← Nat.zero_add n] at hlt hread hroom
  have h := populateLoop_eq hlt hread hroom
  rwa [Nat.zero_add] at h

/-- All bytes of `n` pages follow the first one exactly when each page follows the one before. -/
theorem follows_bytes (hcp : 0 < cp) {A : Nat → BitVec 64} {n : Nat} :
    follows cp A n = true ↔
      ∀ j < n * cp, A (j / cp) + BitVec.ofNat 64 (j % cp) = A 0 + BitVec.ofNat 64 j := by
  rw [follows_iff]
  constructor
  · intro h j hj
    have hpage : ∀ i < n, A i = A 0 + BitVec.ofNat 64 (i * cp) := by
      intro i hi
      induction i with
      | zero => simp
      | succ i ih =>
        rw [← h (i + 1) hi (by omega), Nat.add_sub_cancel, ih (by omega), BitVec.add_assoc,
          ← BitVec.ofNat_add, Nat.succ_mul]
    rw [hpage _ ((Nat.div_lt_iff_lt_mul hcp).mpr hj), BitVec.add_assoc, ← BitVec.ofNat_add,
      Nat.mul_comm, Nat.div_add_mod]
  · intro h i hi hpos
    -- the first bytes of the two pages
    have hfirst : ∀ k < n, A k = A 0 + BitVec.ofNat 64 (k * cp) := by
      intro k hk
      have := h (k * cp) (Nat.mul_lt_mul_of_pos_right hk hcp)
      rwa [Nat.mul_div_cancel _ hcp, Nat.mul_mod_left, BitVec.add_zero] at this
    rw [hfirst i hi, hfirst (i - 1) (by omega), BitVec.add_assoc, ← BitVec.ofNat_add,
      ← Nat.succ_mul, Nat.succ_eq_add_one, Nat.sub_add_cancel hpos]

end Loop

/-! ## Handles -/

section Handle

variable {md : DmaMap} {c : Container} {va : VaRange} {ctrl : NvmCtrl} {ioaddrs : List (BitVec 64)}

theorem populateHandle_contiguous (va : VaRange) (ctrl : NvmCtrl) (ctrlId : Nat)
    (ioaddrs : List (BitVec 64)) :
    (populateHandle va ctrl ctrlId ioaddrs).contiguous =
      follows ctrl.pageSize (ctrlPageAddr ctrl.pageSize va.pageSize ioaddrs)
        (nCtrlPages ctrl va.pageSize va.nPages) := by
  rw [Bool.eq_iff_iff, follows_iff]
  simp only [populateHandle, List.all_eq_true, List.mem_range, Bool.or_eq_true, decide_eq_true_eq]
  refine forall₂_congr fun i hi => ?_
  rw [getD_map_range _ hi, getD_map_range _ (by omega : i - 1 < _), Nat.pos_iff_ne_zero,
    or_iff_not_imp_left]

/-- Within the allocation, the loop computes `populateHandle`. -/
theorem Container.populate_eq (hcp : 0 < ctrl.pageSize) (hvp : 0 < va.pageSize)
    (hlt : va.pageSize * va.nPages < 2 ^ 64) (hlen : ioaddrs.length = va.nPages)
    (hroom : offsetofIoaddrs + 8 * nCtrlPages ctrl va.pageSize va.nPages ≤ c.size) :
    c.populate va ctrl ioaddrs =
      some { populateHandle va ctrl c.ctrl ioaddrs with isLocal := c.isLocal } := by
  have hn : nCtrlPages ctrl va.pageSize va.nPages * ctrl.pageSize ≤ va.pageSize * va.nPages := by
    rw [nCtrlPages, u64_of_lt hlt]
    exact Nat.div_mul_le_self _ _
  have hread : ∀ k < nCtrlPages ctrl va.pageSize va.nPages,
      k * ctrl.pageSize / va.pageSize < ioaddrs.length := by
    intro k hk
    have := Nat.mul_lt_mul_of_pos_right hk hcp
    rw [hlen, Nat.div_lt_iff_lt_mul hvp, Nat.mul_comm va.nPages]
    omega
  rw [Container.populate, populateLoop_all (by omega) hread hroom, Option.map_some,
    ← populateHandle_contiguous va ctrl c.ctrl]
  rfl

/-- The controller has a page size, the pages of the range consist of whole controller pages, and the
size of the range is a 64-bit value. -/
structure DmaMap.Whole (md : DmaMap) : Prop where
  page : 0 < md.ctrl.pageSize
  dvd : md.ctrl.pageSize ∣ md.va.pageSize
  pages : 0 < md.va.nPages
  lt : md.va.pageSize * md.va.nPages < 2 ^ 64

/-- The size of the container is a 64-bit value. -/
def DmaMap.Sized (md : DmaMap) : Prop :=
  sizeofContainer + 8 * (md.va.pageSize * md.va.nPages / md.ctrl.pageSize) < 2 ^ 64

theorem DmaMap.Whole.nCtrlPages_eq (h : md.Whole) :
    nCtrlPages md.ctrl md.va.pageSize md.va.nPages =
      md.va.pageSize * md.va.nPages / md.ctrl.pageSize := by
  rw [nCtrlPages, u64_of_lt h.lt]

theorem DmaMap.Whole.nCtrlPages_mul (h : md.Whole) :
    nCtrlPages md.ctrl md.va.pageSize md.va.nPages * md.ctrl.pageSize =
      md.va.pageSize * md.va.nPages := by
  rw [h.nCtrlPages_eq, Nat.div_mul_cancel (Dvd.dvd.mul_right h.dvd _)]

/-- `_nvm_ctrl_init` refuses page sizes below 4 KiB. -/
theorem nvmCtrlInit_pageSize {alloc : Bool} {hostPage : Nat} {cap : BitVec 64} {ctrl : NvmCtrl}
    (h : nvmCtrlInit alloc hostPage cap = .ok ctrl) : 4096 ≤ ctrl.pageSize := by
  have hpos := (nvmCtrlInit_encoded h).1
  rw [(nvmCtrlInit_ok h).2]
  simp only [u32] at hpos ⊢
  omega

theorem DmaMap.Whole.sized (h : md.Whole) (hpage : 4096 ≤ md.ctrl.pageSize) : md.Sized := by
  have hle : md.va.pageSize * md.va.nPages / md.ctrl.pageSize ≤
      md.va.pageSize * md.va.nPages / 4096 := Nat.div_le_div_left hpage (by decide)
  have := h.lt
  simp only [DmaMap.Sized, sizeofContainer]
  omega

/-- A container has room for one address per controller page. -/
theorem createContainer_ok (hmd : md.Whole) (hs : md.Sized) {malloc : Bool}
    (h : createContainer malloc md = .ok c) :
    0 < md.va.pageSize ∧ c.ctrl = md.ctrlId ∧ c.isLocal = !md.remote ∧
      offsetofIoaddrs + 8 * nCtrlPages md.ctrl md.va.pageSize md.va.nPages ≤ c.size := by
  simp only [createContainer] at h
  split at h
  · cases h
  split at h
  · cases h
  rename_i halign _
  cases h
  simp only [Bool.not_eq_true', Bool.not_eq_false, VaRange.alignsWith, Bool.and_eq_true,
    decide_eq_true_eq] at halign
  refine ⟨Nat.pos_of_ne_zero halign.1.1, rfl, rfl, ?_⟩
  simp only [DmaMap.Sized, ← hmd.nCtrlPages_eq, sizeofContainer] at hs
  simp only [offsetofIoaddrs, sizeofContainer, u64]
  omega

theorem createContainer_some (hmd : md.Whole) (hvp : 0 < md.va.pageSize) :
    ∃ c, createContainer true md = .ok c := by
  have halign : md.va.alignsWith md.ctrl = true := by
    simp only [VaRange.alignsWith, Bool.and_eq_true, decide_eq_true_eq]
    refine ⟨⟨Nat.ne_of_gt hvp, Nat.ne_of_gt hmd.pages⟩, ?_⟩
    rw [u64_of_lt hmd.lt]
    exact Nat.mod_eq_zero_of_dvd (Dvd.dvd.mul_right hmd.dvd _)
  exact ⟨_, by simp only [createContainer, halign]; rfl⟩

/-- The handle of a map. -/
def DmaMap.handle (md : DmaMap) (ioaddrs : List (BitVec 64)) : NvmDma :=
  { populateHandle md.va md.ctrl md.ctrlId ioaddrs with isLocal := !md.remote }

theorem createContainer_populate (hmd : md.Whole) (hs : md.Sized)
    (hlen : ioaddrs.length = md.va.nPages) {malloc : Bool}
    (h : createContainer malloc md = .ok c) :
    c.populate md.va md.ctrl ioaddrs = some (md.handle ioaddrs) := by
  obtain ⟨hvp, hctrl, hlocal, hroom⟩ := createContainer_ok hmd hs h
  rw [Container.populate_eq hmd.page hvp hmd.lt hlen hroom, hctrl, hlocal]
  rfl

theorem DmaMap.handle_nIoaddrs :
    (md.handle ioaddrs).nIoaddrs = nCtrlPages md.ctrl md.va.pageSize md.va.nPages := by
  simp only [NvmDma.nIoaddrs, DmaMap.handle, populateHandle, List.length_map, List.length_range,
    nCtrlPages]

/-- Splitting controller pages into controller pages gives the same pages. -/
theorem ctrlPageAddr_self {cp : Nat} (hcp : 0 < cp) (ioaddrs : List (BitVec 64)) (i : Nat) :
    ctrlPageAddr cp cp ioaddrs i = ioaddrs.getD i 0#64 := by
  rw [ctrlPageAddr, Nat.mul_div_cancel _ hcp, Nat.mul_mod_left, BitVec.add_zero]

/-- Populating a handle from the addresses of another handle on the same map copies it. -/
theorem DmaMap.Whole.populateHandle_copy (hmd : md.Whole) :
    let other := md.handle ioaddrs
    { populateHandle ⟨md.va.vaddr, other.pageSize, other.nIoaddrs⟩ md.ctrl md.ctrlId
        other.ioaddrs with isLocal := !md.remote } = other := by
  intro other
  -- the copy has as many controller pages, since the range is as long
  have hn : nCtrlPages md.ctrl md.ctrl.pageSize other.nIoaddrs =
      nCtrlPages md.ctrl md.va.pageSize md.va.nPages := by
    rw [DmaMap.handle_nIoaddrs, nCtrlPages, Nat.mul_comm, hmd.nCtrlPages_mul, ← nCtrlPages]
  have haddr : ∀ i < nCtrlPages md.ctrl md.va.pageSize md.va.nPages,
      ctrlPageAddr md.ctrl.pageSize md.ctrl.pageSize other.ioaddrs i =
        ctrlPageAddr md.ctrl.pageSize md.va.pageSize ioaddrs i := by
    intro i hi
    rw [ctrlPageAddr_self hmd.page]
    exact getD_map_range _ hi
  have hcontiguous := populateHandle_contiguous
    ⟨md.va.vaddr, md.ctrl.pageSize, other.nIoaddrs⟩ md.ctrl md.ctrlId other.ioaddrs
  have hcontiguous' := populateHandle_contiguous md.va md.ctrl md.ctrlId ioaddrs
  rw [hn, follows_congr haddr, ← hcontiguous'] at hcontiguous
  have hioaddrs : (List.range (nCtrlPages md.ctrl md.ctrl.pageSize other.nIoaddrs)).map
      (ctrlPageAddr md.ctrl.pageSize md.ctrl.pageSize other.ioaddrs) = other.ioaddrs := by
    rw [hn]
    exact List.map_congr_left fun i hi => haddr i (List.mem_range.mp hi)
  exact (NvmDma.mk.injEq ..).mpr ⟨rfl, rfl, hcontiguous, rfl, hioaddrs, rfl⟩

/-- A copy of a handle, made in a container of its own. -/
theorem createContainer_copy (hmd : md.Whole) (hs : md.Sized) {malloc : Bool}
    (h : createContainer malloc md = .ok c) :
    let other := md.handle ioaddrs
    c.populate ⟨md.va.vaddr, other.pageSize, other.nIoaddrs⟩ md.ctrl other.ioaddrs =
      some other := by
  intro other
  obtain ⟨-, hctrl, hlocal, hroom⟩ := createContainer_ok hmd hs h
  have hmul : md.ctrl.pageSize * other.nIoaddrs = md.va.pageSize * md.va.nPages := by
    rw [DmaMap.handle_nIoaddrs, Nat.mul_comm, hmd.nCtrlPages_mul]
  rw [Container.populate_eq hmd.page hmd.page (hmul ▸ hmd.lt) rfl
    (by rw [nCtrlPages] at hroom ⊢; exact hmul ▸ hroom), hctrl, hlocal]
  exact congrArg some hmd.populateHandle_copy

/-- `nvm_dma_remap` stays inside its container, whether it fails or not. -/
theorem DmaMap.Whole.nvmDmaRemap_cases (hmd : md.Whole) (hs : md.Sized) (env : RemapEnv) :
    (∃ e, md.nvmDmaRemap env (md.handle ioaddrs) = some (.error e)) ∨
      md.nvmDmaRemap env (md.handle ioaddrs) = some (.ok (md.handle ioaddrs)) := by
  unfold DmaMap.nvmDmaRemap
  split
  · exact .inl ⟨_, rfl⟩
  split
  · exact .inl ⟨_, rfl⟩
  · rename_i c hc
    exact .inr (by rw [createContainer_copy hmd hs hc, Option.map_some])

theorem DmaMap.Whole.nvmDmaRemap_ok (hmd : md.Whole) (hs : md.Sized) (hvp : 0 < md.va.pageSize) :
    md.nvmDmaRemap ⟨none, true⟩ (md.handle ioaddrs) = some (.ok (md.handle ioaddrs)) := by
  obtain ⟨c, hc⟩ := createContainer_some hmd hvp
  simp only [DmaMap.nvmDmaRemap, hc]
  rw [createContainer_copy hmd hs hc, Option.map_some]

/-- However often handles are copied, all are the same. -/
theorem DmaMap.Whole.run_handles (hmd : md.Whole) (hs : md.Sized)
    {tr : List (List NvmDma × Nat × RemapEnv)} {handles : List NvmDma}
    (hr : Run md.step [md.handle ioaddrs] tr handles) :
    ∀ other ∈ handles, other = md.handle ioaddrs := by
  refine Run.inv_all (fun hs => ∀ other ∈ hs, other = md.handle ioaddrs) ?_ hr (by simp)
  intro handles l handles' hall h
  unfold DmaMap.step at h
  split at h
  · cases h
  rename_i other hother
  obtain rfl := hall other (List.mem_of_getElem? hother)
  rcases hmd.nvmDmaRemap_cases hs l.2 with ⟨e, he⟩ | hok
  · rw [he] at h
    cases h
    exact hall
  · rw [hok] at h
    cases h
    simpa [or_imp, forall_and] using hall

theorem DmaMap.handle_getD {i : Nat} (h : i < nCtrlPages md.ctrl md.va.pageSize md.va.nPages) :
    (md.handle ioaddrs).ioaddrs.getD i 0#64 =
      ctrlPageAddr md.ctrl.pageSize md.va.pageSize ioaddrs i := getD_map_range _ h

/-- The page of a byte is one of the handle's. -/
theorem DmaMap.Whole.page_lt (hmd : md.Whole) {j : Nat}
    (hj : j < md.va.pageSize * md.va.nPages) :
    j / md.ctrl.pageSize < nCtrlPages md.ctrl md.va.pageSize md.va.nPages := by
  rw [Nat.div_lt_iff_lt_mul hmd.page, hmd.nCtrlPages_mul]
  exact hj

/-- The addresses of a handle are the addresses of the range. -/
theorem DmaMap.Whole.handle_byte (hmd : md.Whole) {j : Nat}
    (hj : j < md.va.pageSize * md.va.nPages) :
    (md.handle ioaddrs).ioaddrs.getD (j / md.ctrl.pageSize) 0#64 +
        BitVec.ofNat 64 (j % md.ctrl.pageSize) =
      ioaddrs.getD (j / md.va.pageSize) 0#64 + BitVec.ofNat 64 (j % md.va.pageSize) := by
  obtain ⟨hdiv, hmod⟩ := split_page hmd.page hmd.dvd j
  rw [DmaMap.handle_getD (hmd.page_lt hj), ctrlPageAddr, hdiv, BitVec.add_assoc, ← BitVec.ofNat_add,
    hmod]

theorem DmaMap.Whole.handle_contiguous (hmd : md.Whole) :
    (md.handle ioaddrs).contiguous = true ↔ ∀ j < md.va.pageSize * md.va.nPages,
      (md.handle ioaddrs).ioaddrs.getD (j / md.ctrl.pageSize) 0#64 +
          BitVec.ofNat 64 (j % md.ctrl.pageSize) =
        (md.handle ioaddrs).ioaddrs.getD 0 0#64 + BitVec.ofNat 64 j := by
  have hflag := populateHandle_contiguous md.va md.ctrl md.ctrlId ioaddrs
  rw [show (md.handle ioaddrs).contiguous = _ from hflag, follows_bytes hmd.page,
    hmd.nCtrlPages_mul]
  refine forall₂_congr fun j hj => ?_
  rw [DmaMap.handle_getD (hmd.page_lt hj),
    DmaMap.handle_getD (Nat.zero_lt_of_lt (hmd.page_lt hj))]

end Handle

/-! ## Splitting pages -/

/-- A container can be made for a range with pages, and in every container that is made the handle
is written without leaving it. The handle covers the range, has the addresses of the range's bytes,
and is marked as contiguous when they follow each other. All copies of it, and of copies of it, are
the same and written inside their own containers. -/
def DmaMap.Preserves (md : DmaMap) (ioaddrs : List (BitVec 64)) : Prop :=
  (0 < md.va.pageSize → ∃ c, createContainer true md = .ok c) ∧
    ∀ malloc c, createContainer malloc md = .ok c →
      ∃ dma, c.populate md.va md.ctrl ioaddrs = some dma ∧
        dma.nIoaddrs * md.ctrl.pageSize = md.va.pageSize * md.va.nPages ∧
        (∀ j < md.va.pageSize * md.va.nPages,
          dma.ioaddrs.getD (j / md.ctrl.pageSize) 0#64 + BitVec.ofNat 64 (j % md.ctrl.pageSize) =
            ioaddrs.getD (j / md.va.pageSize) 0#64 + BitVec.ofNat 64 (j % md.va.pageSize)) ∧
        (dma.contiguous = true ↔ ∀ j < md.va.pageSize * md.va.nPages,
          dma.ioaddrs.getD (j / md.ctrl.pageSize) 0#64 + BitVec.ofNat 64 (j % md.ctrl.pageSize) =
            dma.ioaddrs.getD 0 0#64 + BitVec.ofNat 64 j) ∧
        ∀ tr handles, Run md.step [dma] tr handles → ∀ other ∈ handles,
          other = dma ∧ md.nvmDmaRemap ⟨none, true⟩ other = some (.ok dma) ∧
            ∀ env, (md.nvmDmaRemap env other).isSome

theorem DmaMap.Whole.preserves {md : DmaMap} (hmd : md.Whole) (hs : md.Sized)
    {ioaddrs : List (BitVec 64)} (hlen : ioaddrs.length = md.va.nPages) :
    md.Preserves ioaddrs := by
  refine ⟨createContainer_some hmd, ?_⟩
  intro malloc c hc
  have hvp := (createContainer_ok hmd hs hc).1
  refine ⟨md.handle ioaddrs, createContainer_populate hmd hs hlen hc, ?_, ?_,
    hmd.handle_contiguous, ?_⟩
  · rw [DmaMap.handle_nIoaddrs, hmd.nCtrlPages_mul]
  · intro j hj
    exact hmd.handle_byte hj
  · intro tr handles hr other hother
    obtain rfl := hmd.run_handles hs hr other hother
    refine ⟨rfl, hmd.nvmDmaRemap_ok hs hvp, ?_⟩
    intro env
    rcases hmd.nvmDmaRemap_cases hs env with ⟨e, he⟩ | hok
    · rw [he]
      rfl
    · rw [hok]
      rfl

/-- The handles of a controller that was opened. -/
theorem opened_preserves {alloc : Bool} {hostPage : Nat} {cap : BitVec 64} {md : DmaMap}
    (hopen : nvmCtrlInit alloc hostPage cap = .ok md.ctrl) (hmd : md.Whole)
    {ioaddrs : List (BitVec 64)} (hlen : ioaddrs.length = md.va.nPages) : md.Preserves ioaddrs :=
  hmd.preserves (hmd.sized (nvmCtrlInit_pageSize hopen)) hlen

theorem split_preserves (md : DmaMap) (ioaddrs : List (BitVec 64)) (hmd : md.Whole)
    (hlen : ioaddrs.length = md.va.nPages) (hsize : md.ctrl.pageSize < 4096 → md.Sized) :
    md.Preserves ioaddrs := by
  rcases Nat.lt_or_ge md.ctrl.pageSize 4096 with h | h
  · exact hmd.preserves (hsize h) hlen
  · exact hmd.preserves (hmd.sized h) hlen

/-- Two GPU pages that follow each other, and a controller with pages of 4 KiB. -/
def twoPages : DmaMap := ⟨⟨4096, 0, 0, 64⟩, 0, ⟨0, 65536, 2⟩, false⟩

theorem split_preserves_two : twoPages.Preserves [0x10000#64, 0x20000#64] :=
  split_preserves _ _ ⟨by decide, by decide, by decide, by decide⟩ rfl fun h => absurd h (by decide)

/-- A controller page of one byte, and a range of one page of `2^61` bytes: the container has 64 bytes
for `2^61` addresses. -/
def bytePages : DmaMap := ⟨⟨1, 0, 0, 64⟩, 0, ⟨0, 2 ^ 61, 1⟩, false⟩

theorem container_wraps : ¬∀ (md : DmaMap) (ioaddrs : List (BitVec 64)), md.Whole →
    ioaddrs.length = md.va.nPages → md.Preserves ioaddrs := by
  intro h
  obtain ⟨-, hall⟩ := h bytePages [0#64] ⟨by decide, by decide, by decide, by decide⟩ rfl
  obtain ⟨dma, hdma, -⟩ := hall true ⟨64, 0, true⟩ rfl
  have hnone : (Container.populate ⟨64, 0, true⟩ bytePages.va bytePages.ctrl [0#64]).isNone := by
    decide +kernel
  rw [hdma] at hnone
  cases hnone

end Nvm
end UGDS
