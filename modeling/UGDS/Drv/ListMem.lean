import UGDS.Lib.Linked
import UGDS.Nvm.Types

/-!
# UGDS.Drv.ListMem

The kernel module's circular lists (`drv/list.c`, `drv/list.h`) in memory, and `clear_map_list`
(`drv/pci.c`). The memory holds a node for every pointer, `&list->head` for a list or a `list_node` of
its own; `none` is a null pointer that is followed. Each function writes the fields in the order of
the source.

* `ListAt`: the memory holds a list, as a ring of its nodes.
* `ListAt.listInsert`, `ListAt.listRemove`: what the functions do to a list, and that they write
  nothing else.
* `ListAt.walk_eq`: going through a list with `list_next`.
-/

namespace UGDS
namespace Drv

open Lib Nvm

/-! ## The memory -/

/-- A `struct list_node *`: the head of list `l`, or node `n`. -/
inductive Ptr where
  | head (l : Nat)
  | node (n : Nat)
  deriving DecidableEq

/-- `struct list_node`. -/
structure ListNode where
  list : Option Nat
  next : Option Ptr
  prev : Option Ptr
  deriving DecidableEq

abbrev ListMem := Ptr → ListNode

/-- A node after `list_node_init`. -/
def ListNode.null : ListNode := ⟨none, none, none⟩

namespace ListMem

/-- `element->next = v`. -/
def setNext (mem : ListMem) (element : Ptr) (v : Option Ptr) : ListMem :=
  Function.update mem element { mem element with next := v }

/-- `element->prev = v`. -/
def setPrev (mem : ListMem) (element : Ptr) (v : Option Ptr) : ListMem :=
  Function.update mem element { mem element with prev := v }

/-- `list_init`. -/
def listInit (mem : ListMem) (l : Nat) : ListMem :=
  Function.update mem (.head l) ⟨some l, some (.head l), some (.head l)⟩

/-- `list_node_init`. -/
def listNodeInit (mem : ListMem) (element : Ptr) : ListMem := Function.update mem element .null

/-- `list_remove`. -/
def listRemove (mem : ListMem) : (element : Option Ptr) → Option ListMem
  | none => some mem
  | some element =>
    if (mem element).list ≠ none ∧ some element ≠ (mem element).list.map .head then
      match (mem element).prev with
      | none => none
      | some prev =>
        let mem := setNext mem prev (mem element).next
        match (mem element).next with
        | none => none
        | some next =>
          let mem := setPrev mem next (mem element).prev
          some (Function.update mem element .null)
    else some mem

/-- `list_insert`. -/
def listInsert (mem : ListMem) (l : Nat) (element : Ptr) : Option ListMem :=
  match (mem (.head l)).prev with
  | none => none
  | some last =>
    let mem := setNext mem last (some element)
    let mem := Function.update mem element ⟨some l, some (.head l), some last⟩
    some (setPrev mem (.head l) (some element))

/-- `list_next`. -/
def listNext (mem : ListMem) (current : Ptr) : Option Ptr :=
  if (mem current).next ≠ (mem current).list.map .head then (mem current).next else none

/-- `unmap_and_release` of the map with node `n`. `freed` is what the memory of the node holds after
it was freed. -/
def unmapAndRelease (freed : ListNode) (mem : ListMem) (n : Nat) : Option ListMem :=
  (listRemove mem (some (.node n))).map fun mem => Function.update mem (.node n) freed

/-- The loop of `clear_map_list`, with a bound on its turns: the memory at its end, the nodes whose
maps were released, and the number it returns. -/
def clearMapList (freed : Nat → ListNode) (l : Nat) :
    (fuel : Nat) → (mem : ListMem) → (i : Nat) → Option (ListMem × List Nat × Nat)
  | 0, mem, i => if listNext mem (.head l) = none then some (mem, [], i) else none
  | fuel + 1, mem, i =>
    match listNext mem (.head l) with
    | none => some (mem, [], i)
    | some (.head _) => none
    | some (.node n) =>
      match unmapAndRelease (freed n) mem n with
      | none => none
      | some mem =>
        (clearMapList freed l fuel mem (u64 (i + 1))).map fun r => (r.1, n :: r.2.1, r.2.2)

end ListMem

/-! ## One list in the memory -/

/-- The memory holds list `l`: it is a ring of the nodes `s`, which all point to it. -/
structure ListAt (mem : ListMem) (l : Nat) (s : List Nat) : Prop where
  ring : LinkedRing (fun p => (mem p).next) (fun p => (mem p).prev) (.head l) (s.map .node)
  list : ∀ p ∈ Ptr.head l :: s.map .node, (mem p).list = some l

namespace ListMem

variable {mem mem' : ListMem} {l n : Nat} {s : List Nat} {element p : Ptr} {v : Option Ptr}

@[simp] theorem setNext_next :
    (setNext mem element v p).next = if p = element then v else (mem p).next := by
  simp only [setNext, Function.update_apply]
  split <;> rfl

@[simp] theorem setNext_prev : (setNext mem element v p).prev = (mem p).prev := by
  rcases eq_or_ne p element with rfl | h <;> simp [setNext, *]

@[simp] theorem setNext_list : (setNext mem element v p).list = (mem p).list := by
  rcases eq_or_ne p element with rfl | h <;> simp [setNext, *]

@[simp] theorem setPrev_prev :
    (setPrev mem element v p).prev = if p = element then v else (mem p).prev := by
  simp only [setPrev, Function.update_apply]
  split <;> rfl

@[simp] theorem setPrev_next : (setPrev mem element v p).next = (mem p).next := by
  rcases eq_or_ne p element with rfl | h <;> simp [setPrev, *]

@[simp] theorem setPrev_list : (setPrev mem element v p).list = (mem p).list := by
  rcases eq_or_ne p element with rfl | h <;> simp [setPrev, *]

theorem setNext_of_ne (h : p ≠ element) : setNext mem element v p = mem p :=
  Function.update_of_ne h _ _

theorem setPrev_of_ne (h : p ≠ element) : setPrev mem element v p = mem p :=
  Function.update_of_ne h _ _

end ListMem

namespace ListAt

open ListMem

variable {mem mem' : ListMem} {l n : Nat} {s : List Nat}

theorem frame (h : ListAt mem l s) (hm : ∀ p ∈ Ptr.head l :: s.map .node, mem' p = mem p) :
    ListAt mem' l s := by
  refine ⟨h.ring.frame ?_, ?_⟩
  · intro p hp
    simp only [hm p hp, and_self]
  · intro p hp
    rw [hm p hp, h.list p hp]

theorem listInit (mem : ListMem) (l : Nat) : ListAt (listInit mem l) l [] := by
  refine ⟨LinkedRing.empty ?_ ?_, ?_⟩
  · simp [ListMem.listInit]
  · simp [ListMem.listInit]
  · simp [ListMem.listInit]

theorem listInsert (h : ListAt mem l s) (hn : n ∉ s) :
    ∃ mem', listInsert mem l (.node n) = some mem' ∧ ListAt mem' l (s ++ [n]) ∧
      ∀ p ∉ Ptr.head l :: (s ++ [n]).map .node, mem' p = mem p := by
  obtain ⟨last, hmem, hlast⟩ := h.ring.exists_last
  have hnew : Ptr.node n ∉ Ptr.head l :: s.map .node := by simpa using hn
  simp only [ListMem.listInsert, hlast]
  refine ⟨_, rfl, ⟨?_, ?_⟩, ?_⟩
  · rw [List.map_append, List.map_singleton]
    refine h.ring.insert hnew hlast ?_ ?_
    · intro p
      simp [Function.update_apply, apply_ite ListNode.next]
    · intro p
      simp [Function.update_apply, apply_ite ListNode.prev]
  · intro p hp
    rw [setPrev_list, Function.update_apply]
    split
    · rfl
    · rename_i hne
      rw [setNext_list]
      exact h.list p (by simpa [hne] using hp)
  · intro p hp
    rw [List.map_append, ← List.cons_append, List.mem_append, not_or] at hp
    have hpe : p ≠ .node n := by simpa using hp.2
    have hph : p ≠ .head l := List.ne_of_not_mem_cons hp.1
    have hplast : p ≠ last := fun heq => hp.1 (heq ▸ hmem)
    rw [setPrev_of_ne hph, Function.update_of_ne hpe, setNext_of_ne hplast]

theorem listRemove (h : ListAt mem l s) (hn : n ∈ s) :
    ∃ mem', listRemove mem (some (.node n)) = some mem' ∧ ListAt mem' l (s.erase n) ∧
      mem' (.node n) = .null ∧ ∀ p ∉ Ptr.head l :: s.map .node, mem' p = mem p := by
  obtain ⟨xs, ys, rfl⟩ := List.append_of_mem hn
  have hring := h.ring
  rw [List.map_append, List.map_cons] at hring
  obtain ⟨prev, hpmem, next, hqmem, hprev, hnext, hpe⟩ := hring.neighbours
  have hlist : (mem (.node n)).list = some l := h.list _ (by simp)
  have hguard : (mem (.node n)).list ≠ none ∧
      some (Ptr.node n) ≠ (mem (.node n)).list.map .head := by simp [hlist]
  have herase : (xs ++ n :: ys).erase n = xs ++ ys := by
    have hnodup : (xs ++ n :: ys).Nodup :=
      List.Nodup.of_map Ptr.node (List.nodup_cons.mp h.ring.nodup).2
    rw [List.nodup_append] at hnodup
    have hxs : n ∉ xs := fun hmem => hnodup.2.2 n hmem n List.mem_cons_self rfl
    rw [List.erase_append_right _ hxs, List.erase_cons_head]
  simp only [ListMem.listRemove]
  rw [if_pos hguard]
  simp only [hprev, setNext_next, if_neg hpe.symm, hnext, setNext_prev]
  refine ⟨_, rfl, ⟨?_, ?_⟩, Function.update_self .., ?_⟩
  · rw [herase, List.map_append]
    refine hring.remove hprev hnext ?_ ?_
    · intro p hp
      simp [Function.update_of_ne hp]
    · intro p hp
      simp [Function.update_of_ne hp]
  · intro p hp
    rw [herase] at hp
    have hne : p ≠ .node n := by
      rintro rfl
      have hnodup := hring.nodup
      rw [← List.cons_append, List.nodup_middle, List.nodup_cons] at hnodup
      exact hnodup.1 (by simpa using hp)
    rw [Function.update_of_ne hne, setPrev_list, setNext_list]
    refine h.list p ?_
    simp only [List.map_append, List.mem_cons, List.mem_append, List.map_cons] at hp ⊢
    tauto
  · intro p hp
    rw [List.map_append, List.map_cons] at hp
    have hne : p ≠ .node n := fun heq => hp (by simp [heq])
    have hprev_ne : p ≠ prev := fun heq => hp (heq ▸ hpmem)
    have hnext_ne : p ≠ next := fun heq => hp (heq ▸ hqmem)
    rw [Function.update_of_ne hne, setPrev_of_ne hnext_ne, setNext_of_ne hprev_ne]

end ListAt

/-! ## Going through a list -/

namespace ListAt

variable {mem : ListMem} {l n : Nat} {s : List Nat}

theorem listNext_eq (h : ListAt mem l s) {p : Ptr} (hp : p ∈ Ptr.head l :: s.map .node) :
    ListMem.listNext mem p = if (mem p).next = some (.head l) then none else (mem p).next := by
  rw [ListMem.listNext, h.list p hp, Option.map_some, ite_not]

theorem walk_eq (h : ListAt mem l s) {fuel : Nat} (hfuel : s.length ≤ fuel) :
    walk (ListMem.listNext mem) fuel (ListMem.listNext mem (.head l)) = some (s.map .node) :=
  h.ring.walk_eq (fun _ hp => h.listNext_eq hp) (by rwa [List.length_map])

theorem listNext_head (h : ListAt mem l s) :
    ListMem.listNext mem (.head l) = (s.map Ptr.node).head? := by
  have hwalk := h.walk_eq (Nat.le_refl _)
  cases hnext : ListMem.listNext mem (.head l) with
  | none =>
    rw [hnext, walk_none] at hwalk
    rw [← Option.some.inj hwalk]
    rfl
  | some p =>
    rw [hnext] at hwalk
    cases hlen : s.length with
    | zero =>
      rw [hlen] at hwalk
      cases hwalk
    | succ fuel =>
      rw [hlen, walk] at hwalk
      obtain ⟨ps, -, hps⟩ := Option.map_eq_some_iff.mp hwalk
      rw [← hps]
      rfl

end ListAt

end Drv
end UGDS
