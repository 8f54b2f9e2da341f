import Mathlib.Data.List.Count
import Mathlib.Data.List.Nodup
import Mathlib.Data.List.Perm.Basic

/-!
# UGDS.Lib.Keys

Lists whose elements have keys, as tables.

* `find_key`, `find_of_nodup`: what a lookup finds.
* `filter_ne_perm`, `filter_eq_singleton`: taking an element out by its key.
* `fresh_of_lt`, `nodup_snoc`, `snoc_lt`: an element more, when the keys are given out in order.
* `count_map`: how often a key occurs.
-/

namespace UGDS
namespace Lib

section

variable {α κ : Type} [DecidableEq κ] {key : α → κ} {l : List α} {a : α} {k : κ}

theorem find_key (h : k ∈ l.map key) :
    ∃ a ∈ l, key a = k ∧ l.find? (fun x => key x = k) = some a := by
  obtain ⟨x, hx, rfl⟩ := List.mem_map.mp h
  cases hf : l.find? fun y => key y = key x with
  | none =>
    have := List.find?_eq_none.mp hf x hx
    simp at this
  | some y => exact ⟨y, List.mem_of_find?_eq_some hf, by simpa using List.find?_some hf, rfl⟩

/-- With distinct keys, an element is found by its own. -/
theorem find_of_nodup (hnd : (l.map key).Nodup) (ha : a ∈ l) :
    l.find? (fun x => key x = key a) = some a := by
  obtain ⟨y, hy, hk, hf⟩ := find_key (List.mem_map_of_mem (f := key) ha)
  rw [hf, List.inj_on_of_nodup_map hnd hy ha hk]

/-- With distinct keys, taking out all elements of one key takes out one. -/
theorem filter_ne_perm (hnd : (l.map key).Nodup) (ha : a ∈ l) :
    l.Perm (a :: l.filter fun x => key x ≠ key a) := by
  induction l with
  | nil => cases ha
  | cons x l ih =>
    obtain ⟨hnot, hnd⟩ := List.nodup_cons.mp hnd
    rcases List.mem_cons.mp ha with rfl | ha
    · have hall : l.filter (fun y => key y ≠ key a) = l := by
        refine List.filter_eq_self.mpr fun y hy => ?_
        have : key y ≠ key a := fun he => hnot (he ▸ List.mem_map_of_mem hy)
        simpa using this
      rw [List.filter_cons_of_neg (by simp), hall]
    · have hne : key x ≠ key a := fun he => hnot (he ▸ List.mem_map_of_mem ha)
      rw [List.filter_cons_of_pos (by simpa using hne)]
      exact ((ih hnd ha).cons x).trans (List.Perm.swap _ _ _)

/-- With distinct keys, an element is the only one with its key. -/
theorem filter_eq_singleton (hnd : (l.map key).Nodup) (ha : a ∈ l) :
    l.filter (fun x => key x = key a) = [a] := by
  have hp := (filter_ne_perm hnd ha).filter fun x => decide (key x = key a)
  rw [List.filter_cons_of_pos (by simp), List.filter_filter] at hp
  simpa using hp

theorem count_map (l : List α) (k : κ) :
    (l.map key).count k = (l.filter fun x => key x = k).length := by
  rw [List.count, List.countP_map, List.countP_eq_length_filter]
  congr 1

end

section

variable {α : Type} {f : α → Nat} {l : List α} {a : α} {n : Nat}

/-- The next key is not in use. -/
theorem fresh_of_lt (h : ∀ x ∈ l, f x < n) : n ∉ l.map f := by
  intro hmem
  obtain ⟨x, hx, heq⟩ := List.mem_map.mp hmem
  exact absurd heq (Nat.ne_of_lt (h x hx))

theorem nodup_snoc {l : List α} (h : l.Nodup) (ha : a ∉ l) : (l ++ [a]).Nodup :=
  h.append (List.nodup_singleton _) (List.disjoint_singleton.mpr ha)

theorem snoc_lt (h : ∀ x ∈ l, f x < n) (ha : f a < n) : ∀ x ∈ l ++ [a], f x < n :=
  List.forall_mem_append.mpr ⟨h, List.forall_mem_singleton.mpr ha⟩

end

end Lib
end UGDS
