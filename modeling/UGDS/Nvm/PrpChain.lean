import UGDS.Lib.Keys
import UGDS.Nvm.Cmd

/-!
# UGDS.Nvm.PrpChain

Chained PRP lists (`nvm_prp_list`, `nvm_prp_list_chain` and `nvm_cmd_data`, `nvm_cmd.h`), and how a
controller walks them.

Memory is one 64-bit word per address. The functions only access words at multiples of 8 bytes from
the start of a list page, so words of list pages that do not overlap never do. `none` is an index
beyond `ioaddrs`. Flushing the list from the cache has no effect in this configuration.

A controller (`walk`) takes the first page from PRP1 and the second of two from PRP2. For more pages
PRP2 is the address of a list page; if more entries remain than the list page has slots, its last slot
is the address of the next one.

* `nvmPrpList_spec`: what filling one list page does.
* `prpChain_spec`: what the loop over the list pages does, by induction on them.
* `prp_chain_exact`: the walk yields the given addresses, and enough list pages always suffice.
-/

namespace UGDS
namespace Nvm

/-- `nvm_prp_list_t`. -/
structure PrpList where
  vaddr : Nat
  isLocal : Bool
  pageSize : Nat
  ioaddr : BitVec 64
  deriving DecidableEq, Repr

/-- The loop of `nvm_prp_list`: entries 0 to `k - 1` of the list page at `vaddr`. -/
def prpEntries (vaddr : Nat) (ioaddrs : List (BitVec 64)) :
    Nat → (Nat → BitVec 64) → Option (Nat → BitVec 64)
  | 0, mem => some mem
  | k + 1, mem =>
    match prpEntries vaddr ioaddrs k mem, ioaddrs[k]? with
    | some mem, some addr => some (Function.update mem (vaddr + 8 * k) addr)
    | _, _ => none

/-- `nvm_prp_list`: the number of entries used and the memory. When not all pages fit, the last slot
is left for the next list. -/
def nvmPrpList (list : PrpList) (nPages : Nat) (ioaddrs : List (BitVec 64))
    (mem : Nat → BitVec 64) : Option (Nat × (Nat → BitVec 64)) :=
  let nPrps := list.pageSize / 8
  if nPages = 0 then some (0, mem)
  else
    let n := if nPages > nPrps then u64 ((2 ^ 64 - 1) + nPrps) else nPages
    (prpEntries list.vaddr ioaddrs n mem).map fun mem => (n, mem)

/-- The loop of `nvm_prp_list_chain` over the lists after `prev`, of which `prev` has `listPrps`
entries and all lists so far `nPrps`. -/
def prpChain (nPages : Nat) (ioaddrs : List (BitVec 64)) :
    PrpList → List PrpList → (listPrps nPrps : Nat) → (Nat → BitVec 64) →
      Option (Nat × (Nat → BitVec 64))
  | _, [], _, nPrps, mem => some (nPrps, mem)
  | prev, list :: lists, listPrps, nPrps, mem =>
    if nPrps < nPages then
      let mem := Function.update mem (prev.vaddr + 8 * listPrps) list.ioaddr
      match nvmPrpList list (nPages - nPrps) (ioaddrs.drop nPrps) mem with
      | none => none
      | some (listPrps, mem) => prpChain nPages ioaddrs list lists listPrps (nPrps + listPrps) mem
    else some (nPrps, mem)

/-- `nvm_prp_list_chain`. The empty list stands for `n_lists == 0` and for `NULL`. -/
def nvmPrpListChain (lists : List PrpList) (nPages : Nat) (ioaddrs : List (BitVec 64))
    (mem : Nat → BitVec 64) : Option (Nat × (Nat → BitVec 64)) :=
  match lists with
  | [] => some (0, mem)
  | list :: lists =>
    match nvmPrpList list nPages ioaddrs mem with
    | none => none
    | some (listPrps, mem) => prpChain nPages ioaddrs list lists listPrps listPrps mem

/-- `nvm_cmd_data`: the number of PRP entries, the command and the memory. -/
def nvmCmdData (cmd : NvmCmd) (lists : List PrpList) (nPages : Nat) (ioaddrs : List (BitVec 64))
    (mem : Nat → BitVec 64) : Option (Nat × NvmCmd × (Nat → BitVec 64)) :=
  if nPages = 0 then some (0, cmd, mem)
  else
    match ioaddrs[0]? with
    | none => none
    | some dptr0 =>
      match lists with
      | [] =>
        if nPages ≥ 2 then
          (ioaddrs[1]?).map fun dptr1 => (2, nvmCmdDataPtr cmd dptr0 dptr1, mem)
        else some (1, nvmCmdDataPtr cmd dptr0 0, mem)
      | list :: _ =>
        if nPages > 2 then
          (nvmPrpListChain lists (nPages - 1) (ioaddrs.drop 1) mem).map fun x =>
            (1 + x.1, nvmCmdDataPtr cmd dptr0 list.ioaddr, x.2)
        else if nPages ≥ 2 then
          (ioaddrs[1]?).map fun dptr1 => (2, nvmCmdDataPtr cmd dptr0 dptr1, mem)
        else some (1, nvmCmdDataPtr cmd dptr0 0, mem)

/-! ## The controller -/

/-- The words in the first `n` slots of a list page. -/
def PrpList.words (list : PrpList) (mem : Nat → BitVec 64) (n : Nat) : List (BitVec 64) :=
  (List.range n).map fun i => mem (list.vaddr + 8 * i)

/-- The `n` entries from the list page at bus address `addr` on. Each turn reads at least one entry,
so `n` turns are enough. -/
def walkLists (lists : List PrpList) (mem : Nat → BitVec 64) :
    (fuel : Nat) → BitVec 64 → (n : Nat) → Option (List (BitVec 64))
  | 0, _, _ => none
  | fuel + 1, addr, n =>
    match lists.find? fun list => list.ioaddr = addr with
    | none => none
    | some list =>
      let slots := list.pageSize / 8
      if n ≤ slots then some (list.words mem n)
      else
        (walkLists lists mem fuel (mem (list.vaddr + 8 * (slots - 1))) (n - (slots - 1))).map
          (list.words mem (slots - 1) ++ ·)

/-- The pages that a controller finds for a command that transfers `n` pages. -/
def walk (lists : List PrpList) (mem : Nat → BitVec 64) (cmd : NvmCmd) (n : Nat) :
    Option (List (BitVec 64)) :=
  if n = 0 then some []
  else if n = 1 then some [cmd.prp1]
  else if n = 2 then some [cmd.prp1, cmd.prp2]
  else (walkLists lists mem n cmd.prp2 (n - 1)).map (cmd.prp1 :: ·)

/-! ## Filling the lists -/

/-- An address is not in the list's page. -/
def PrpList.Outside (list : PrpList) (x : Nat) : Prop :=
  x < list.vaddr ∨ list.vaddr + list.pageSize ≤ x

section Fill

variable {vaddr k : Nat} {ioaddrs : List (BitVec 64)}

theorem prpEntries_spec (mem : Nat → BitVec 64) (hk : k ≤ ioaddrs.length) :
    ∃ mem', prpEntries vaddr ioaddrs k mem = some mem' ∧
      (∀ i, i < k → ioaddrs[i]? = some (mem' (vaddr + 8 * i))) ∧
      ∀ x, x < vaddr ∨ vaddr + 8 * k ≤ x → mem' x = mem x := by
  induction k with
  | zero => exact ⟨mem, rfl, fun i hi => absurd hi (Nat.not_lt_zero i), fun _ _ => rfl⟩
  | succ k ih =>
    obtain ⟨mem', he, hin, hout⟩ := ih (by omega)
    have hget : ioaddrs[k]? = some ioaddrs[k] := List.getElem?_eq_getElem hk
    refine ⟨Function.update mem' (vaddr + 8 * k) ioaddrs[k], by simp only [prpEntries, he, hget], ?_, ?_⟩
    · intro i hi
      by_cases hik : i = k
      · subst hik
        rw [hget, Function.update_self]
      · rw [Function.update_of_ne (by omega)]
        exact hin i (by omega)
    · intro x hx
      rw [Function.update_of_ne (by omega)]
      exact hout x (by omega)

/-- List page `list` has taken the first `m` of the entries `es`: all of them if they fit, else one
for each slot but the last. -/
structure Filled (list : PrpList) (es : List (BitVec 64)) (m : Nat) (mem mem' : Nat → BitVec 64) :
    Prop where
  count : m = if list.pageSize / 8 < es.length then list.pageSize / 8 - 1 else es.length
  slot : ∀ i, i < m → es[i]? = some (mem' (list.vaddr + 8 * i))
  frame : ∀ x, list.Outside x → mem' x = mem x

theorem nvmPrpList_spec {list : PrpList} (hpage : 16 ≤ list.pageSize) (hlt : list.pageSize < 2 ^ 64)
    {es : List (BitVec 64)} (hes : es.length ≠ 0) (mem : Nat → BitVec 64) :
    ∃ m mem', nvmPrpList list es.length es mem = some (m, mem') ∧ Filled list es m mem mem' := by
  have hdec : u64 ((2 ^ 64 - 1) + list.pageSize / 8) = list.pageSize / 8 - 1 := by
    simp only [u64]
    omega
  obtain ⟨m, hm⟩ : ∃ m, m = (if list.pageSize / 8 < es.length then list.pageSize / 8 - 1
    else es.length) := ⟨_, rfl⟩
  have hbounds : m ≤ es.length ∧ 8 * m ≤ list.pageSize := by
    rw [hm]
    split <;> omega
  obtain ⟨mem', he, hin, hout⟩ := @prpEntries_spec list.vaddr m es mem hbounds.1
  refine ⟨m, mem', ?_, hm, hin, ?_⟩
  · simp only [nvmPrpList, if_neg hes, hdec, gt_iff_lt, ← hm, he, Option.map_some]
  · intro x hx
    refine hout x ?_
    rcases hx with h | h
    · exact .inl h
    · exact .inr (by omega)

theorem words_eq_take {list : PrpList} {mem : Nat → BitVec 64} {es : List (BitVec 64)} {n : Nat}
    (h : ∀ i, i < n → es[i]? = some (mem (list.vaddr + 8 * i))) : list.words mem n = es.take n := by
  apply List.ext_getElem?
  intro i
  by_cases hi : i < n
  · rw [List.getElem?_take_of_lt hi, h i hi]
    simp [PrpList.words, hi]
  · rw [List.getElem?_eq_none (by simp [PrpList.words]; omega),
      List.getElem?_eq_none (by simp; omega)]

end Fill

/-! ## The chain -/

/-- The pages of two lists do not overlap. -/
def PrpList.Disjoint (a b : PrpList) : Prop :=
  a.vaddr + a.pageSize ≤ b.vaddr ∨ b.vaddr + b.pageSize ≤ a.vaddr

/-- A slot of `a` is outside `b`. -/
theorem PrpList.Disjoint.outside {a b : PrpList} (h : a.Disjoint b) {i : Nat}
    (hi : i < a.pageSize / 8) : b.Outside (a.vaddr + 8 * i) := by
  rcases h with h | h
  · exact .inl (by omega)
  · exact .inr (by omega)

/-- The list pages that a chain is made of: of one size, not overlapping, and found by the controller
at their bus addresses. -/
structure Chainable (page : Nat) (all lists : List PrpList) : Prop where
  size : ∀ l ∈ lists, l.pageSize = page
  found : ∀ l ∈ lists, all.find? (fun x => x.ioaddr = l.ioaddr) = some l
  disjoint : lists.Pairwise PrpList.Disjoint

theorem Chainable.tail {page : Nat} {all lists : List PrpList} {l : PrpList}
    (h : Chainable page all (l :: lists)) : Chainable page all lists :=
  ⟨fun x hx => h.size x (List.mem_cons_of_mem _ hx), fun x hx => h.found x (List.mem_cons_of_mem _ hx),
    (List.pairwise_cons.mp h.disjoint).2⟩

/-- A list page whose slots hold the entries, read by the controller. -/
theorem walkLists_last {all : List PrpList} {list : PrpList} {mem : Nat → BitVec 64}
    {es : List (BitVec 64)} {fuel : Nat} (hf : all.find? (fun x => x.ioaddr = list.ioaddr) = some list)
    (hfit : es.length ≤ list.pageSize / 8)
    (h : ∀ i, i < es.length → es[i]? = some (mem (list.vaddr + 8 * i))) :
    walkLists all mem (fuel + 1) list.ioaddr es.length = some es := by
  simp only [walkLists, hf, if_pos hfit, words_eq_take h, List.take_length]

theorem walkLists_next {all : List PrpList} {list : PrpList} {mem : Nat → BitVec 64}
    {es : List (BitVec 64)} {fuel : Nat} (hf : all.find? (fun x => x.ioaddr = list.ioaddr) = some list)
    (hmore : list.pageSize / 8 < es.length)
    (h : ∀ i, i < list.pageSize / 8 - 1 → es[i]? = some (mem (list.vaddr + 8 * i)))
    (hrest : walkLists all mem fuel (mem (list.vaddr + 8 * (list.pageSize / 8 - 1)))
      (es.length - (list.pageSize / 8 - 1)) = some (es.drop (list.pageSize / 8 - 1))) :
    walkLists all mem (fuel + 1) list.ioaddr es.length = some es := by
  simp only [walkLists, hf, if_neg (by omega : ¬es.length ≤ list.pageSize / 8), words_eq_take h, hrest,
    Option.map_some, List.take_append_drop]

/-- What the chain from list `prev` on achieves for the entries `es`, of which `n` were placed:
nothing outside the list pages changes, a complete chain is read back, and with `lists` more list
pages that are enough it is complete. -/
structure ChainOk (page : Nat) (all : List PrpList) (es : List (BitVec 64)) (prev : PrpList)
    (lists : List PrpList) (mem mem' : Nat → BitVec 64) (n : Nat) : Prop where
  frame : ∀ x, (∀ l ∈ prev :: lists, l.Outside x) → mem' x = mem x
  walk : n = es.length → ∀ fuel, es.length ≤ fuel →
    walkLists all mem' fuel prev.ioaddr es.length = some es
  enough : es.length ≤ lists.length * (page / 8 - 1) + page / 8 → n = es.length

section Chain

variable {page : Nat} {all lists : List PrpList} {prev l : PrpList} {es : List (BitVec 64)} {m n : Nat}
  {mem mem₁ mem' : Nat → BitVec 64}

/-- The entries fit into `prev`. -/
theorem ChainOk.last (hc : Chainable page all (prev :: lists)) (h : Filled prev es m mem mem₁)
    (hne : es.length ≠ 0) (hfit : es.length ≤ page / 8) :
    m = es.length ∧ ChainOk page all es prev lists mem mem₁ m := by
  have hsize := hc.size prev List.mem_cons_self
  have hm : m = es.length := by
    rw [h.count, hsize, if_neg (by omega)]
  refine ⟨hm, fun x hx => h.frame x (hx prev List.mem_cons_self), ?_, fun _ => hm⟩
  intro _ fuel hfuel
  obtain ⟨f, rfl⟩ : ∃ f, fuel = f + 1 := ⟨fuel - 1, by omega⟩
  exact walkLists_last (hc.found prev List.mem_cons_self) (by rw [hsize]; exact hfit) (hm ▸ h.slot)

/-- The entries do not fit into `prev`, and there is no other list. -/
theorem ChainOk.short (hc : Chainable page all [prev]) (h : Filled prev es m mem mem₁)
    (hmore : page / 8 < es.length) : ChainOk page all es prev [] mem mem₁ m := by
  have hm := h.count
  rw [hc.size prev List.mem_cons_self, if_pos hmore] at hm
  refine ⟨fun x hx => h.frame x (hx prev List.mem_cons_self), ?_, ?_⟩
  · intro hn
    omega
  · intro henough
    rw [List.length_nil] at henough
    omega

/-- The last slot of `prev` points to list `l`, which takes the entries from number `m` on. -/
theorem ChainOk.next (h16 : 16 ≤ page) (hc : Chainable page all (prev :: l :: lists))
    (h : Filled prev es m mem mem₁) (hmore : page / 8 < es.length)
    (hl : ChainOk page all (es.drop m) l lists
      (Function.update mem₁ (prev.vaddr + 8 * m) l.ioaddr) mem' n) :
    ChainOk page all es prev (l :: lists) mem mem' (m + n) := by
  have hsize := hc.size prev List.mem_cons_self
  have hm : m = page / 8 - 1 := by
    rw [h.count, hsize, if_pos hmore]
  have hlen : (es.drop m).length = es.length - m := List.length_drop
  -- the later lists leave the slots of `prev` alone
  have hkeep (i : Nat) (hi : i < page / 8) : mem' (prev.vaddr + 8 * i) =
      Function.update mem₁ (prev.vaddr + 8 * m) l.ioaddr (prev.vaddr + 8 * i) := by
    refine hl.frame _ fun x hx => ?_
    exact ((List.pairwise_cons.mp hc.disjoint).1 x hx).outside (by rw [hsize]; exact hi)
  refine ⟨?_, ?_, ?_⟩
  · intro x hx
    have hxp := hx prev List.mem_cons_self
    have hne : x ≠ prev.vaddr + 8 * m := by
      rcases hxp with hlt | hge <;> omega
    rw [hl.frame x fun y hy => hx y (List.mem_cons_of_mem _ hy), Function.update_of_ne hne]
    exact h.frame x hxp
  · intro hn fuel hfuel
    obtain ⟨f, rfl⟩ : ∃ f, fuel = f + 1 := ⟨fuel - 1, by omega⟩
    refine walkLists_next (hc.found prev List.mem_cons_self) (by rw [hsize]; exact hmore) ?_ ?_
    · intro i hi
      rw [hsize, ← hm] at hi
      rw [hkeep i (by omega), Function.update_of_ne (by omega)]
      exact h.slot i hi
    · rw [hsize, ← hm, hkeep m (by omega), Function.update_self, ← hlen]
      exact hl.walk (by omega) f (by omega)
  · intro henough
    rw [List.length_cons, Nat.add_mul, Nat.one_mul] at henough
    have := hl.enough (by omega)
    omega

/-- The loop of `nvm_prp_list_chain` after list `prev` has taken the entries from number `base` on. -/
theorem prpChain_spec (h16 : 16 ≤ page) (hlt : page < 2 ^ 64) (entries : List (BitVec 64)) {base : Nat}
    (hc : Chainable page all (prev :: lists)) (hbase : base < entries.length)
    (h : Filled prev (entries.drop base) m mem mem₁) :
    ∃ n mem', prpChain entries.length entries prev lists m (base + m) mem₁ = some (base + n, mem') ∧
      ChainOk page all (entries.drop base) prev lists mem mem' n := by
  have hlen (b : Nat) : (entries.drop b).length = entries.length - b := List.length_drop
  induction lists generalizing prev base m mem mem₁ with
  | nil =>
    refine ⟨m, mem₁, rfl, ?_⟩
    by_cases hfit : (entries.drop base).length ≤ page / 8
    · exact (ChainOk.last hc h (by rw [hlen]; omega) hfit).2
    · exact .short hc h (by omega)
  | cons l lists ih =>
    by_cases hfit : (entries.drop base).length ≤ page / 8
    · obtain ⟨hm, hok⟩ := ChainOk.last hc h (by rw [hlen]; omega) hfit
      rw [hlen] at hm
      exact ⟨m, mem₁, by rw [prpChain, if_neg (by omega)], hok⟩
    · have hm := h.count
      rw [hc.size prev List.mem_cons_self, if_pos (by omega)] at hm
      rw [hlen] at hfit
      have hsize := hc.tail.size l List.mem_cons_self
      obtain ⟨m', mem₂, he, hf⟩ := nvmPrpList_spec (hsize ▸ h16) (hsize ▸ hlt)
        (by rw [hlen]; omega : (entries.drop (base + m)).length ≠ 0)
        (Function.update mem₁ (prev.vaddr + 8 * m) l.ioaddr)
      obtain ⟨n, mem', hrun, hok⟩ := ih hc.tail (by omega) hf
      rw [← List.drop_drop] at hok
      refine ⟨m + n, mem', ?_, .next h16 hc h (by rw [hlen]; omega) hok⟩
      rw [hlen] at he
      rw [prpChain, if_pos (by omega)]
      simp only [he]
      rw [hrun, Nat.add_assoc]

end Chain

/-- `n` entries fit into the list pages. -/
def EnoughLists (page : Nat) (lists : List PrpList) (n : Nat) : Prop :=
  lists ≠ [] ∧ n ≤ (lists.length - 1) * (page / 8 - 1) + page / 8

theorem nvmCmdDataPtr_prp (cmd : NvmCmd) (p q : BitVec 64) :
    (nvmCmdDataPtr cmd p q).prp1 = p ∧ (nvmCmdDataPtr cmd p q).prp2 = q := by
  constructor
  · simp only [NvmCmd.prp1, nvmCmdDataPtr, NvmCmd.set_dword]
    exact split_append p
  · simp only [NvmCmd.prp2, nvmCmdDataPtr, NvmCmd.set_dword]
    exact split_append q

/-- `nvm_cmd_data` for any addresses and any list pages of one size that do not overlap and have
different bus addresses. If it returns the number of pages, a controller that walks the command finds
exactly the given addresses, in order; and it does return that number when the entries behind the
first one fit into the list pages, or there is at most one of them. -/
theorem prp_chain_exact {page : Nat} (h16 : 16 ≤ page) (hlt : page < 2 ^ 64) {lists : List PrpList}
    (hsize : ∀ l ∈ lists, l.pageSize = page) (hio : (lists.map PrpList.ioaddr).Nodup)
    (hdis : lists.Pairwise PrpList.Disjoint) (cmd : NvmCmd) (ioaddrs : List (BitVec 64))
    (mem : Nat → BitVec 64) :
    ∃ n cmd' mem', nvmCmdData cmd lists ioaddrs.length ioaddrs mem = some (n, cmd', mem') ∧
      (n = ioaddrs.length → walk lists mem' cmd' ioaddrs.length = some ioaddrs) ∧
      (ioaddrs.length ≤ 2 ∨ EnoughLists page lists (ioaddrs.length - 1) → n = ioaddrs.length) := by
  rcases ioaddrs with _ | ⟨a, _ | ⟨b, _ | ⟨c, rest⟩⟩⟩
  · exact ⟨0, cmd, mem, rfl, fun _ => rfl, fun _ => rfl⟩
  · refine ⟨1, nvmCmdDataPtr cmd a 0, mem, by cases lists <;> rfl, fun _ => ?_, fun _ => rfl⟩
    simp [walk, (nvmCmdDataPtr_prp cmd a 0#64).1]
  · refine ⟨2, nvmCmdDataPtr cmd a b, mem, by cases lists <;> rfl, fun _ => ?_, fun _ => rfl⟩
    simp [walk, nvmCmdDataPtr_prp cmd a b]
  · cases lists with
    | nil =>
      refine ⟨2, nvmCmdDataPtr cmd a b, mem, rfl, ?_, ?_⟩
      · intro h
        simp at h
      · rintro (h | h)
        · simp at h
        · exact absurd rfl h.1
    | cons l lists =>
      obtain ⟨entries, he⟩ : ∃ entries, entries = b :: c :: rest := ⟨_, rfl⟩
      have hlen : 2 ≤ entries.length := by simp [he]
      have hc : Chainable page (l :: lists) (l :: lists) :=
        ⟨hsize, fun x hx => Lib.find_of_nodup hio hx, hdis⟩
      have hl := hsize l List.mem_cons_self
      obtain ⟨m, mem₁, hfill, hf⟩ := nvmPrpList_spec (hl ▸ h16) (hl ▸ hlt)
        (by omega : entries.length ≠ 0) mem
      obtain ⟨n, mem', hrun, hok⟩ := prpChain_spec h16 hlt entries hc (by omega : 0 < entries.length) hf
      rw [Nat.zero_add, Nat.zero_add] at hrun
      obtain ⟨hp1, hp2⟩ := nvmCmdDataPtr_prp cmd a l.ioaddr
      rw [← he]
      have hn0 : entries.length + 1 ≠ 0 := by omega
      have hn2 : entries.length + 1 > 2 := by omega
      refine ⟨1 + n, nvmCmdDataPtr cmd a l.ioaddr, mem', ?_, ?_, ?_⟩
      · simp only [nvmCmdData, List.length_cons, if_neg hn0, if_pos hn2, List.getElem?_cons_zero,
          Nat.add_sub_cancel, List.drop_one, List.tail_cons, nvmPrpListChain, hfill, hrun,
          Option.map_some]
      · intro hn
        rw [List.length_cons] at hn ⊢
        have hwalk := hok.walk (by rw [List.drop_zero]; omega) (entries.length + 1)
          (by rw [List.drop_zero]; omega)
        rw [List.drop_zero] at hwalk
        simp only [walk, if_neg hn0, if_neg (by omega : ¬entries.length + 1 = 1),
          if_neg (by omega : ¬entries.length + 1 = 2), Nat.add_sub_cancel, hp1, hp2, hwalk,
          Option.map_some]
      · rintro (h | ⟨-, h⟩)
        · rw [List.length_cons] at h
          omega
        · have := hok.enough (by
            rw [List.drop_zero]
            simpa using h)
          rw [List.drop_zero] at this
          rw [List.length_cons]
          omega

/-- Two list pages of 16 bytes hold three entries, the first one and two behind it. -/
theorem prp_chain_exact_two_lists :
    let lists : List PrpList := [⟨0, true, 16, 0x1000⟩, ⟨16, true, 16, 0x2000⟩]
    let ioaddrs : List (BitVec 64) := [0xa000, 0xb000, 0xc000, 0xd000]
    EnoughLists 16 lists (ioaddrs.length - 1) ∧
      ∃ cmd' mem', nvmCmdData .zero lists ioaddrs.length ioaddrs (fun _ => 0) = some (4, cmd', mem') ∧
        walk lists mem' cmd' ioaddrs.length = some ioaddrs := by
  intro lists ioaddrs
  have henough : EnoughLists 16 lists (ioaddrs.length - 1) := ⟨by decide, by decide⟩
  obtain ⟨n, cmd', mem', he, hwalk, hn⟩ := @prp_chain_exact 16 (by decide) (by decide) lists
    (by decide) (by decide) (by unfold PrpList.Disjoint; decide) .zero ioaddrs (fun _ => 0)
  obtain rfl : n = 4 := hn (.inr henough)
  exact ⟨henough, cmd', mem', he, hwalk rfl⟩

end Nvm
end UGDS
