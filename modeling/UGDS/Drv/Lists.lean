import UGDS.Lib.Steps
import UGDS.Drv.ListMem

/-!
# UGDS.Drv.Lists

What the circular lists of the kernel module are for, and that the memory keeps to it over every
sequence of calls. Every list that was initialised is a sequence, and every node is in one of them, in
none, or not initialised; nothing is assumed about memory before it is initialised. Initialising a
list that still has nodes makes an empty list: the nodes keep pointers into the old one and count as
not initialised, as does a node whose memory is freed.

* `Represents.step`: every call on the memory does what it does to the sequences.
* `Represents.run`: so does every sequence of calls.
* `Represents.clearMapList`: `clear_map_list` releases the nodes of a list, each one once.
* `lists_faithful`: a list is the nodes inserted into it and not removed since.
-/

namespace UGDS
namespace Drv

open Lib Nvm

/-! ## The calls -/

inductive ListOp where
  | init (l : Nat)
  | nodeInit (n : Nat)
  | insert (l n : Nat)
  | remove (n : Nat)
  deriving DecidableEq

def ListMem.exec (mem : ListMem) : ListOp → Option ListMem
  | .init l => some (listInit mem l)
  | .nodeInit n => some (listNodeInit mem (.node n))
  | .insert l n => listInsert mem l (.node n)
  | .remove n => listRemove mem (some (.node n))

def ListMem.execAll (mem : ListMem) : List ListOp → Option ListMem
  | [] => some mem
  | op :: ops => (exec mem op).bind fun mem => execAll mem ops

/-- The nodes that a call inserts into list `l`. -/
def ListOp.adds (l : Nat) : ListOp → List Nat
  | .insert k n => if k = l then [n] else []
  | _ => []

/-- The call takes node `n` out of list `l`, if it is there. -/
def ListOp.ends (l n : Nat) : ListOp → Bool
  | .remove m => n = m
  | .init k => k = l
  | _ => false

/-- The nodes inserted into list `l` and not removed since, in the order of their insertion. -/
def remaining (l : Nat) : List ListOp → List Nat
  | [] => []
  | op :: ops => (op.adds l).filter (fun n => !ops.any (ListOp.ends l n)) ++ remaining l ops

theorem remaining_snoc (l : Nat) (ops : List ListOp) (op : ListOp) :
    remaining l (ops ++ [op]) =
      (remaining l ops).filter (fun n => !op.ends l n) ++ op.adds l := by
  induction ops with
  | nil => simp [remaining]
  | cons o ops ih =>
    rw [List.cons_append, remaining, ih, remaining, List.filter_append, List.filter_filter,
      List.append_assoc]
    simp [List.any_append, Bool.and_comm]

/-! ## Sequences -/

/-- Where a node is. -/
inductive Place where
  | raw
  | free
  | within (l : Nat)
  deriving DecidableEq

def Place.isWithin : Place → Bool
  | .within _ => true
  | _ => false

/-- The nodes of the sequences are those that are said to be there, each one once. -/
structure Placed (seq : Nat → Option (List Nat)) (place : Nat → Place) : Prop where
  within_iff : ∀ n l, place n = .within l ↔ ∃ s, seq l = some s ∧ n ∈ s
  nodup : ∀ l s, seq l = some s → s.Nodup

theorem Place.not_isWithin_free : ¬Place.free.isWithin := Bool.false_ne_true

namespace Placed

variable {seq : Nat → Option (List Nat)} {place : Nat → Place}

theorem empty : Placed (fun _ => none) (fun _ => .raw) :=
  ⟨fun _ _ => by simp, fun _ _ h => by cases h⟩

theorem not_mem (h : Placed seq place) {n : Nat} (hn : ¬(place n).isWithin) {l : Nat} {s : List Nat}
    (hs : seq l = some s) : n ∉ s := by
  intro hmem
  rw [(h.within_iff n l).mpr ⟨s, hs, hmem⟩] at hn
  exact hn rfl

theorem init (h : Placed seq place) (l : Nat) :
    Placed (Function.update seq l (some []))
      (fun n => if place n = .within l then .raw else place n) := by
  constructor
  · intro n k
    by_cases hk : k = l
    · subst hk
      rw [Function.update_self]
      split <;> simp_all
    · rw [Function.update_of_ne hk, ← h.within_iff]
      split
      · simp_all [eq_comm]
      · rfl
  · intro k s hs
    by_cases hk : k = l
    · subst hk
      rw [Function.update_self] at hs
      cases hs
      exact List.nodup_nil
    · rw [Function.update_of_ne hk] at hs
      exact h.nodup k s hs

theorem outside (h : Placed seq place) {n : Nat} (hn : ¬(place n).isWithin) {p : Place}
    (hp : ¬p.isWithin) : Placed seq (Function.update place n p) := by
  refine ⟨?_, h.nodup⟩
  intro m k
  by_cases hm : m = n
  · subst hm
    rw [Function.update_self]
    constructor
    · rintro rfl
      exact absurd rfl hp
    · rintro ⟨s, hs, hmem⟩
      exact absurd hmem (h.not_mem hn hs)
  · rw [Function.update_of_ne hm, h.within_iff]

theorem insert (h : Placed seq place) {l n : Nat} (hl : (seq l).isSome) (hn : ¬(place n).isWithin) :
    Placed (Function.update seq l ((seq l).map (· ++ [n]))) (Function.update place n (.within l)) := by
  obtain ⟨s, hs⟩ := Option.isSome_iff_exists.mp hl
  have hns := h.not_mem hn hs
  rw [hs, Option.map_some]
  constructor
  · intro m k
    have hmk := h.within_iff m k
    by_cases hm : m = n <;> by_cases hk : k = l
    · subst hm hk
      simp
    · subst hm
      rw [Function.update_self, Function.update_of_ne hk, ← hmk]
      constructor
      · intro heq
        exact absurd (Place.within.inj heq).symm hk
      · intro heq
        rw [heq] at hn
        exact absurd rfl hn
    · subst hk
      rw [Function.update_of_ne hm, Function.update_self, hmk, hs]
      simp [hm]
    · rw [Function.update_of_ne hm, Function.update_of_ne hk, hmk]
  · intro k t ht
    by_cases hk : k = l
    · subst hk
      rw [Function.update_self] at ht
      cases ht
      exact List.nodup_append.mpr ⟨h.nodup k s hs, List.nodup_singleton n, by
        intro a ha b hb
        rw [List.mem_singleton.mp hb]
        rintro rfl
        exact hns ha⟩
    · rw [Function.update_of_ne hk] at ht
      exact h.nodup k t ht

theorem remove (h : Placed seq place) (n : Nat) :
    Placed (fun l => if place n = .within l then (seq l).map (·.erase n) else seq l)
      (Function.update place n .free) := by
  constructor
  · intro m k
    have hmk := h.within_iff m k
    by_cases hm : m = n
    · subst hm
      rw [Function.update_self]
      split
      · rename_i hin
        obtain ⟨s, hs, -⟩ := hmk.mp hin
        simp [hs, List.Nodup.mem_erase_iff (h.nodup k s hs)]
      · rename_i hin
        rw [← hmk]
        simp [hin]
    · rw [Function.update_of_ne hm, hmk]
      split
      · rename_i hin
        obtain ⟨s, hs, -⟩ := (h.within_iff n k).mp hin
        simp [hs, List.mem_erase_of_ne hm]
      · rfl
  · intro k t ht
    split at ht
    · rename_i hin
      obtain ⟨s, hs, -⟩ := (h.within_iff n k).mp hin
      rw [hs, Option.map_some] at ht
      cases ht
      exact (h.nodup k s hs).erase n
    · exact h.nodup k t ht

end Placed

/-- What the lists are for. -/
@[ext] structure Lists where
  seq : Nat → Option (List Nat)
  place : Nat → Place
  placed : Placed seq place

namespace Lists

/-- Nothing is initialised. -/
def empty : Lists := ⟨_, _, Placed.empty⟩

def init (A : Lists) (l : Nat) : Lists := ⟨_, _, A.placed.init l⟩

/-- Node `n`, which is in no list, is in the state `p` now: free when it is initialised, raw when its
memory is freed. -/
def setPlace (A : Lists) (n : Nat) (p : Place) (h : ¬(A.place n).isWithin ∧ ¬p.isWithin) : Lists :=
  ⟨_, _, A.placed.outside h.1 h.2⟩

def insert (A : Lists) (l n : Nat) (h : (A.seq l).isSome ∧ ¬(A.place n).isWithin) : Lists :=
  ⟨_, _, A.placed.insert h.1 h.2⟩

def remove (A : Lists) (n : Nat) : Lists := ⟨_, _, A.placed.remove n⟩

/-- A list can be initialised at any time. A node is initialised or inserted when it is in no list, and
inserted into a list that was initialised; an initialised node can be removed. -/
def step (A : Lists) : ListOp → Option Lists
  | .init l => some (A.init l)
  | .nodeInit n =>
    if h : ¬(A.place n).isWithin ∧ ¬Place.free.isWithin then some (A.setPlace n .free h) else none
  | .insert l n =>
    if h : (A.seq l).isSome ∧ ¬(A.place n).isWithin then some (A.insert l n h) else none
  | .remove n => if A.place n ≠ .raw then some (A.remove n) else none

end Lists

/-! ## What the memory holds -/

/-- The memory holds all lists, and a node that was initialised and is in no list is null. -/
structure Represents (mem : ListMem) (A : Lists) : Prop where
  lists : ∀ l s, A.seq l = some s → ListAt mem l s
  free : ∀ n, A.place n = .free → mem (.node n) = .null

theorem Lists.disjoint (A : Lists) {k l : Nat} {t s : List Nat} (hk : A.seq k = some t)
    (hl : A.seq l = some s) (hne : k ≠ l) {p : Ptr} (hp : p ∈ Ptr.head k :: t.map .node) :
    p ∉ Ptr.head l :: s.map .node := by
  intro hp'
  cases p with
  | head j =>
    have hjk : j = k := by simpa using hp
    have hjl : j = l := by simpa using hp'
    exact hne (hjk.symm.trans hjl)
  | node n =>
    have hnk := (A.placed.within_iff n k).mpr ⟨t, hk, by simpa using hp⟩
    have hnl := (A.placed.within_iff n l).mpr ⟨s, hl, by simpa using hp'⟩
    exact hne (Place.within.inj (hnk.symm.trans hnl))

theorem Lists.node_not_mem (A : Lists) {n : Nat} (hn : ¬(A.place n).isWithin) {l : Nat} {s : List Nat}
    (hl : A.seq l = some s) : Ptr.node n ∉ Ptr.head l :: s.map .node := by
  simpa using A.placed.not_mem hn hl

namespace Represents

variable {mem mem' : ListMem} {A A' : Lists} {l n : Nat} {s : List Nat}

/-- Any memory will do when nothing is initialised. -/
theorem empty (mem : ListMem) : Represents mem .empty := by
  constructor
  · intro l s hs
    cases hs
  · intro n hn
    cases hn

theorem init (h : Represents mem A) (l : Nat) : Represents (ListMem.listInit mem l) (A.init l) := by
  constructor
  · intro k t ht
    by_cases hk : k = l
    · subst hk
      simp only [Lists.init, Function.update_self] at ht
      cases ht
      exact ListAt.listInit mem k
    · simp only [Lists.init, Function.update_of_ne hk] at ht
      refine (h.lists k t ht).frame ?_
      intro p hp
      refine Function.update_of_ne ?_ _ _
      rintro rfl
      simp [Ne.symm hk] at hp
  · intro n hn
    simp only [Lists.init] at hn
    split at hn
    · cases hn
    · exact h.free n hn

/-- A node that is in no list can be written over. -/
theorem setPlace (h : Represents mem A) {p : Place} (hn : ¬(A.place n).isWithin ∧ ¬p.isWithin)
    {v : ListNode} (hv : p = .free → v = .null) :
    Represents (Function.update mem (.node n) v) (A.setPlace n p hn) := by
  constructor
  · intro k t ht
    refine (h.lists k t ht).frame ?_
    intro q hq
    have hqn : q ≠ .node n := fun heq => A.node_not_mem hn.1 ht (heq ▸ hq)
    exact Function.update_of_ne hqn _ _
  · intro m hm
    simp only [Lists.setPlace] at hm
    by_cases hmn : m = n
    · subst hmn
      rw [Function.update_self] at hm ⊢
      exact hv hm
    · rw [Function.update_of_ne hmn] at hm
      rw [Function.update_of_ne (by simpa using hmn)]
      exact h.free m hm

theorem insert (h : Represents mem A) (hl : (A.seq l).isSome ∧ ¬(A.place n).isWithin) :
    ∃ mem', ListMem.listInsert mem l (.node n) = some mem' ∧
      Represents mem' (A.insert l n hl) := by
  obtain ⟨s, hs⟩ := Option.isSome_iff_exists.mp hl.1
  obtain ⟨mem', hmem, hat, hframe⟩ := (h.lists l s hs).listInsert (A.placed.not_mem hl.2 hs)
  have hout : ∀ p, p ∉ Ptr.head l :: s.map .node → p ≠ .node n → mem' p = mem p := by
    intro p hp hpn
    refine hframe p ?_
    simp only [List.map_append, List.mem_cons, List.mem_append, List.map_singleton,
      List.not_mem_nil, or_false] at hp ⊢
    tauto
  refine ⟨mem', hmem, ?_, ?_⟩
  · intro k t ht
    by_cases hk : k = l
    · subst hk
      simp only [Lists.insert, Function.update_self, hs, Option.map_some] at ht
      cases ht
      exact hat
    · simp only [Lists.insert, Function.update_of_ne hk] at ht
      refine (h.lists k t ht).frame ?_
      intro p hp
      exact hout p (A.disjoint ht hs hk hp) fun heq => A.node_not_mem hl.2 ht (heq ▸ hp)
  · intro m hm
    have hmn : m ≠ n := by
      rintro rfl
      simp [Lists.insert] at hm
    simp only [Lists.insert, Function.update_of_ne hmn] at hm
    rw [hout _ (A.node_not_mem (by rw [hm]; exact Place.not_isWithin_free) hs) (by simpa using hmn)]
    exact h.free m hm

/-- A node that is in no list is left alone. -/
theorem remove_free (h : Represents mem A) (hn : A.place n = .free) :
    ListMem.listRemove mem (some (.node n)) = some mem := by
  simp [ListMem.listRemove, h.free n hn, ListNode.null]

theorem remove (h : Represents mem A) (hn : A.place n ≠ .raw) :
    ∃ mem', ListMem.listRemove mem (some (.node n)) = some mem' ∧
      Represents mem' (A.remove n) := by
  cases hp : A.place n with
  | raw => exact absurd hp hn
  | free =>
    refine ⟨mem, h.remove_free hp, ?_, ?_⟩
    · intro k t ht
      simp only [Lists.remove, hp, reduceCtorEq, if_false] at ht
      exact h.lists k t ht
    · intro m hm
      by_cases hmn : m = n
      · subst hmn
        exact h.free m hp
      · simp only [Lists.remove, Function.update_of_ne hmn] at hm
        exact h.free m hm
  | within l =>
    obtain ⟨s, hs, hns⟩ := (A.placed.within_iff n l).mp hp
    obtain ⟨mem', hmem, hat, hnull, hframe⟩ := (h.lists l s hs).listRemove hns
    refine ⟨mem', hmem, ?_, ?_⟩
    · intro k t ht
      simp only [Lists.remove, hp, Place.within.injEq] at ht
      split at ht
      · rename_i hk
        subst hk
        rw [hs, Option.map_some] at ht
        cases ht
        exact hat
      · rename_i hk
        refine (h.lists k t ht).frame ?_
        intro p hpt
        exact hframe p (A.disjoint ht hs (Ne.symm hk) hpt)
    · intro m hm
      by_cases hmn : m = n
      · subst hmn
        exact hnull
      · simp only [Lists.remove, Function.update_of_ne hmn] at hm
        rw [hframe _ (A.node_not_mem (by rw [hm]; exact Place.not_isWithin_free) hs)]
        exact h.free m hm

theorem step (h : Represents mem A) {op : ListOp} (ho : A.step op = some A') :
    ∃ mem', ListMem.exec mem op = some mem' ∧ Represents mem' A' := by
  cases op with
  | init l =>
    cases ho
    exact ⟨_, rfl, h.init l⟩
  | nodeInit n =>
    simp only [Lists.step] at ho
    split at ho
    · cases ho
      exact ⟨_, rfl, h.setPlace _ fun _ => rfl⟩
    · cases ho
  | insert l n =>
    simp only [Lists.step] at ho
    split at ho
    · cases ho
      exact h.insert _
    · cases ho
  | remove n =>
    simp only [Lists.step] at ho
    split at ho
    · cases ho
      rename_i hn
      exact h.remove hn
    · cases ho

theorem run (h : Represents mem A) {tr : List (Lists × ListOp)} (hr : Run Lists.step A tr A') :
    ∃ mem', ListMem.execAll mem (tr.map Prod.snd) = some mem' ∧ Represents mem' A' := by
  induction hr generalizing mem with
  | refl => exact ⟨mem, rfl, h⟩
  | cons hs _ ih =>
    obtain ⟨mem₁, hexec, h₁⟩ := h.step hs
    obtain ⟨mem', hall, h'⟩ := ih h₁
    exact ⟨mem', by simp [ListMem.execAll, hexec, hall], h'⟩

end Represents

/-- After a node of list `l` was removed and freed, initialising `l` would do what it would have done
before. -/
theorem Lists.init_remove {A : Lists} {l n : Nat} (hn : A.place n = .within l)
    (h : ¬((A.remove n).place n).isWithin ∧ ¬Place.raw.isWithin) :
    ((A.remove n).setPlace n .raw h).init l = A.init l := by
  ext k : 2
  · simp only [Lists.init, Lists.setPlace, Lists.remove, hn, Place.within.injEq]
    by_cases hk : k = l
    · rw [hk, Function.update_self, Function.update_self]
    · rw [Function.update_of_ne hk, Function.update_of_ne hk, if_neg (Ne.symm hk)]
  · by_cases hk : k = n
    · subst hk
      simp [Lists.init, Lists.setPlace, hn]
    · simp [Lists.init, Lists.setPlace, Lists.remove, hk]

theorem Lists.init_of_nil {A : Lists} {l : Nat} (hs : A.seq l = some []) : A.init l = A := by
  ext k : 2
  · by_cases hk : k = l
    · simp [Lists.init, hk, hs]
    · simp [Lists.init, hk]
  · have hnone : A.place k ≠ .within l := by
      intro hk
      obtain ⟨s, hs', hmem⟩ := (A.placed.within_iff k l).mp hk
      rw [hs] at hs'
      cases hs'
      cases hmem
    simp [Lists.init, hnone]

/-- `clear_map_list` releases the nodes of a list in their order and leaves an empty list. -/
theorem Represents.clearMapList {mem : ListMem} {A : Lists} {l : Nat} {s : List Nat}
    (h : Represents mem A) (hs : A.seq l = some s) (freed : Nat → ListNode) {fuel : Nat}
    (hfuel : s.length ≤ fuel) (i : Nat) :
    ∃ mem', ListMem.clearMapList freed l fuel mem (u64 i) = some (mem', s, u64 (i + s.length)) ∧
      Represents mem' (A.init l) := by
  induction s generalizing mem A fuel i with
  | nil =>
    have hnext := (h.lists l _ hs).listNext_head
    rw [Lists.init_of_nil hs]
    refine ⟨mem, ?_, h⟩
    cases fuel with
    | zero => simp [ListMem.clearMapList, hnext]
    | succ fuel => simp [ListMem.clearMapList, hnext]
  | cons n s ih =>
    have hnext := (h.lists l _ hs).listNext_head
    have hn : A.place n = .within l := (A.placed.within_iff n l).mpr ⟨_, hs, List.mem_cons_self⟩
    obtain ⟨mem₁, hremove, h₁⟩ := h.remove (n := n) (by rw [hn]; exact Place.noConfusion)
    have hfree : ¬((A.remove n).place n).isWithin ∧ ¬Place.raw.isWithin := by
      simp [Lists.remove, Place.isWithin]
    have h₂ := h₁.setPlace hfree (v := freed n) (by simp)
    have hs₂ : ((A.remove n).setPlace n .raw hfree).seq l = some s := by
      simp [Lists.setPlace, Lists.remove, hn, hs]
    obtain ⟨fuel, rfl⟩ := Nat.exists_eq_add_one_of_ne_zero (by simp at hfuel; omega : fuel ≠ 0)
    obtain ⟨mem', hclear, h'⟩ := ih h₂ hs₂ (Nat.le_of_succ_le_succ hfuel) (i + 1)
    rw [Lists.init_remove hn] at h'
    refine ⟨mem', ?_, h'⟩
    have hcount : u64 (u64 i + 1) = u64 (i + 1) := by simp [u64]
    simp only [ListMem.clearMapList, hnext, List.map_cons, List.head?_cons,
      ListMem.unmapAndRelease, hremove, Option.map_some, hcount, hclear, List.length_cons]
    rw [Nat.add_right_comm]
    rfl

/-! ## Histories -/

/-- One more call, on the sequences and on the history. -/
theorem Lists.seq_snoc {A A' : Lists} {op : ListOp} {ops : List ListOp}
    (h : ∀ l s, A.seq l = some s → s = remaining l ops) (ho : A.step op = some A') :
    ∀ l s, A'.seq l = some s → s = remaining l (ops ++ [op]) := by
  intro l s hs
  rw [remaining_snoc]
  cases op with
  | init k =>
    cases ho
    by_cases hl : l = k
    · subst hl
      simp only [Lists.init, Function.update_self] at hs
      cases hs
      simp [ListOp.ends, ListOp.adds]
    · simp only [Lists.init, Function.update_of_ne hl] at hs
      simp [ListOp.ends, ListOp.adds, Ne.symm hl, ← h l s hs]
  | nodeInit n =>
    simp only [Lists.step] at ho
    split at ho
    · cases ho
      simp [ListOp.ends, ListOp.adds, ← h l s hs]
    · cases ho
  | insert k n =>
    simp only [Lists.step] at ho
    split at ho
    · cases ho
      by_cases hl : l = k
      · subst hl
        simp only [Lists.insert, Function.update_self] at hs
        obtain ⟨t, ht, rfl⟩ := Option.map_eq_some_iff.mp hs
        simp [ListOp.ends, ListOp.adds, ← h l t ht]
      · simp only [Lists.insert, Function.update_of_ne hl] at hs
        simp [ListOp.ends, ListOp.adds, Ne.symm hl, ← h l s hs]
    · cases ho
  | remove n =>
    simp only [Lists.step] at ho
    split at ho
    · cases ho
      simp only [Lists.remove] at hs
      simp only [ListOp.ends, ListOp.adds, List.append_nil]
      split at hs
      · obtain ⟨t, ht, rfl⟩ := Option.map_eq_some_iff.mp hs
        rw [← h l t ht, (A.placed.nodup l t ht).erase_eq_filter]
        refine List.filter_congr fun m _ => ?_
        rcases eq_or_ne m n with rfl | hm <;> simp [*]
      · rename_i hn
        rw [← h l s hs, eq_comm, List.filter_eq_self]
        intro m hm
        have hne : m ≠ n := by
          rintro rfl
          exact hn ((A.placed.within_iff m l).mpr ⟨s, hs, hm⟩)
        simp [hne]
    · cases ho

theorem Lists.run_seq {A : Lists} {tr : List (Lists × ListOp)} (hr : Run Lists.step .empty tr A) :
    ∀ l s, A.seq l = some s → s = remaining l (tr.map Prod.snd) := by
  let inv (tr : List (Lists × ListOp)) (A : Lists) : Prop :=
    ∀ l s, A.seq l = some s → s = remaining l (tr.map Prod.snd)
  have hstart : inv [] .empty := by
    intro l s hs
    cases hs
  refine Run.inv_trace inv ?_ hr hstart
  intro tr A op A' h ho l s
  rw [List.map_append]
  exact Lists.seq_snoc h ho l s

/-- In the memory list `l` is the sequence `s`: going through it with `list_next` ends and visits `s`,
`next` and `prev` are inverse to each other around the ring, and `clear_map_list` ends and releases
each node of `s` once, whatever becomes of the freed memory. -/
def ListMem.IsSequence (mem : ListMem) (l : Nat) (s : List Nat) : Prop :=
  s.Nodup ∧
    (∀ fuel, s.length ≤ fuel →
      walk (listNext mem) fuel (listNext mem (.head l)) = some (s.map .node)) ∧
    (∀ p ∈ Ptr.head l :: s.map .node,
      (∃ q ∈ Ptr.head l :: s.map .node, (mem p).next = some q ∧ (mem q).prev = some p) ∧
        ∃ q ∈ Ptr.head l :: s.map .node, (mem p).prev = some q ∧ (mem q).next = some p) ∧
    ∀ freed fuel, s.length ≤ fuel → ∃ mem',
      clearMapList freed l fuel mem 0 = some (mem', s, u64 s.length) ∧
        listNext mem' (.head l) = none

theorem Represents.isSequence {mem : ListMem} {A : Lists} {l : Nat} {s : List Nat}
    (h : Represents mem A) (hs : A.seq l = some s) : mem.IsSequence l s := by
  have hat := h.lists l s hs
  refine ⟨A.placed.nodup l s hs, fun fuel hfuel => hat.walk_eq hfuel, ?_, ?_⟩
  · intro p hp
    exact ⟨hat.ring.next_prev hp, hat.ring.prev_next hp⟩
  · intro freed fuel hfuel
    obtain ⟨mem', hclear, h'⟩ := h.clearMapList hs freed hfuel 0
    rw [Nat.zero_add] at hclear
    refine ⟨mem', hclear, ?_⟩
    have hnil : (A.init l).seq l = some [] := Function.update_self ..
    exact (h'.lists l [] hnil).listNext_head

theorem lists_faithful (mem : ListMem) {A : Lists} {tr : List (Lists × ListOp)}
    (hr : Run Lists.step .empty tr A) :
    ∃ mem', mem.execAll (tr.map Prod.snd) = some mem' ∧
      (∀ l, (A.seq l).isSome → mem'.IsSequence l (remaining l (tr.map Prod.snd))) ∧
      ∀ n, A.place n = .free → mem'.listRemove (some (.node n)) = some mem' := by
  obtain ⟨mem', hexec, h⟩ := (Represents.empty mem).run hr
  refine ⟨mem', hexec, ?_, fun n hn => h.remove_free hn⟩
  intro l hl
  obtain ⟨s, hs⟩ := Option.isSome_iff_exists.mp hl
  rw [← Lists.run_seq hr l s hs]
  exact h.isSequence hs

/-- Two lists; node 2 is inserted, taken out and inserted into the other list, and node 3 is removed
before it was ever inserted. -/
def exampleOps : List ListOp :=
  [.init 0, .init 1, .insert 0 1, .insert 0 2, .insert 0 4, .remove 2, .remove 2, .insert 1 2,
    .nodeInit 3, .remove 3]

theorem lists_faithful_two : ∃ mem', ListMem.execAll (fun _ => .null) exampleOps = some mem' ∧
    mem'.IsSequence 0 [1, 4] ∧ mem'.IsSequence 1 [2] ∧
      mem'.listRemove (some (.node 3)) = some mem' := by
  obtain ⟨tr, A, hr, htr, -, hA⟩ := follow_trace Lists.step (fun _ _ => true) .empty exampleOps
    (fun A => (A.seq 0).isSome && (A.seq 1).isSome && A.place 3 = .free) (by decide +kernel)
  simp only [Bool.and_eq_true, decide_eq_true_eq] at hA
  obtain ⟨mem', hexec, hseq, hfree⟩ := lists_faithful (fun _ => .null) hr
  rw [htr] at hexec hseq
  exact ⟨mem', hexec, hseq 0 hA.1.1, hseq 1 hA.1.2, hfree 3 hA.2⟩

end Drv
end UGDS
