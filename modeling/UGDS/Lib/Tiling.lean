import Mathlib.Data.List.Chain
import Mathlib.Logic.ExistsUnique

/-!
# UGDS.Lib.Tiling

Consecutive intervals. `Tiles start len a l b`: the intervals `[start x, start x + len x)` of the
elements `x` of `l`, in the order of the list, are non-empty and follow one another without gap
from `a` to `b`.

* `Tiles.unique_cover`: every point from `a` to `b` lies in exactly one of them.
* `Tiles.mem_bounds`: none of them reaches outside.
* `Tiles.isChain`: each begins where the one before it ends.
-/

namespace UGDS
namespace Lib

section Tiles

variable {α : Type} (start len : α → Nat)

inductive Tiles : Nat → List α → Nat → Prop where
  | nil {a : Nat} : Tiles a [] a
  | cons {a b : Nat} {x : α} {l : List α} :
      start x = a → 0 < len x → Tiles (a + len x) l b → Tiles a (x :: l) b

variable {start len}

theorem Tiles.le {a b : Nat} {l : List α} (h : Tiles start len a l b) : a ≤ b := by
  induction h with
  | nil => exact le_refl _
  | cons _ _ _ ih => omega

theorem Tiles.eq_nil {a : Nat} {l : List α} (h : Tiles start len a l a) : l = [] := by
  cases h with
  | nil => rfl
  | cons _ hpos ht =>
    have := ht.le
    omega

theorem Tiles.mem_bounds {a b : Nat} {l : List α} (h : Tiles start len a l b) :
    ∀ x ∈ l, a ≤ start x ∧ start x + len x ≤ b := by
  induction h with
  | nil => intro x hx; simp at hx
  | cons hs _ ht ih =>
    intro x hx
    have := ht.le
    rcases List.mem_cons.mp hx with rfl | hx
    · omega
    · have := ih x hx
      omega

theorem Tiles.unique_cover {a b : Nat} {l : List α} (h : Tiles start len a l b) {y : Nat}
    (ha : a ≤ y) (hb : y < b) :
    ∃! i : Nat, ∃ x, l[i]? = some x ∧ start x ≤ y ∧ y < start x + len x := by
  induction h with
  | nil => omega
  | @cons a b x l hs _ ht ih =>
    by_cases hy : y < a + len x
    · -- the first interval, and the others start after its end
      refine ⟨0, ⟨x, rfl, by omega, by omega⟩, ?_⟩
      rintro i ⟨z, hz, h1, h2⟩
      cases i with
      | zero => rfl
      | succ i =>
        rw [List.getElem?_cons_succ] at hz
        have := ht.mem_bounds z (List.mem_of_getElem? hz)
        omega
    · obtain ⟨i, ⟨z, hz, h1, h2⟩, hu⟩ := ih (by omega) hb
      refine ⟨i + 1, ⟨z, by rw [List.getElem?_cons_succ]; exact hz, h1, h2⟩, ?_⟩
      rintro j ⟨w, hw, h3, h4⟩
      cases j with
      | zero =>
        cases hw
        omega
      | succ j =>
        rw [List.getElem?_cons_succ] at hw
        rw [hu j ⟨w, hw, h3, h4⟩]

theorem Tiles.isChain {a b : Nat} {l : List α} (h : Tiles start len a l b) :
    l.IsChain (fun x y => start x + len x = start y) := by
  induction h with
  | nil => exact .nil
  | cons hs _ ht ih =>
    cases ht with
    | nil => exact .singleton _
    | cons hs' _ _ => exact .cons_cons (by rw [hs, hs']) ih

end Tiles

end Lib
end UGDS
