import Mathlib.Data.List.Nodup
import Mathlib.Logic.Function.Basic

/-!
# UGDS.Lib.Chain

Singly linked lists in a heap, over arbitrary types of places, cells and values. `next` and `val` read
the link and the value of a cell; a place that is not allocated has no cell.

* `Seg.cell`, `Seg.append_iff`: the cells of a list, and a list in two parts.
* `Seg.unique`, `Seg.nodup`: a list that ends is determined by its first link, and goes through no
  place twice.
* `Seg.frame`, `Seg.update`: cells elsewhere do not matter.
* `Seg.relink`: giving the last cell another link.
-/

namespace UGDS
namespace Lib

section Chain

variable {α ν β : Type} (next : ν → Option α) (val : ν → β)

/-- The links lead from `p` through the places of `l`, which hold its values, to `q`. -/
def Seg (heap : α → Option ν) : Option α → List (α × β) → Option α → Prop
  | p, [], q => p = q
  | p, x :: l, q => p = some x.1 ∧ ∃ c, heap x.1 = some c ∧ val c = x.2 ∧ Seg heap (next c) l q

variable {next val} {heap heap' : α → Option ν} {p q r : Option α} {x : α × β}
  {l l₁ l₂ : List (α × β)}

namespace Seg

theorem frame (h : Seg next val heap p l q) (hf : ∀ x ∈ l, heap' x.1 = heap x.1) :
    Seg next val heap' p l q := by
  induction l generalizing p with
  | nil => exact h
  | cons x l ih =>
    obtain ⟨hp, c, hc, hv, hrest⟩ := h
    refine ⟨hp, c, (hf x List.mem_cons_self).trans hc, hv, ih hrest ?_⟩
    intro y hy
    exact hf y (List.mem_cons_of_mem x hy)

theorem update [DecidableEq α] (h : Seg next val heap p l q) {a : α} (ha : a ∉ l.map Prod.fst)
    (c : Option ν) : Seg next val (Function.update heap a c) p l q := by
  refine h.frame ?_
  intro y hy
  refine Function.update_of_ne ?_ ..
  intro heq
  exact ha (heq ▸ List.mem_map_of_mem hy)

theorem cell (h : Seg next val heap p l q) (hx : x ∈ l) : ∃ c, heap x.1 = some c ∧ val c = x.2 := by
  induction l generalizing p with
  | nil => cases hx
  | cons y l ih =>
    obtain ⟨-, c, hc, hv, hrest⟩ := h
    rcases List.mem_cons.mp hx with rfl | hx
    · exact ⟨c, hc, hv⟩
    · exact ih hrest hx

theorem append_iff : Seg next val heap p (l₁ ++ l₂) r ↔
    ∃ q, Seg next val heap p l₁ q ∧ Seg next val heap q l₂ r := by
  induction l₁ generalizing p with
  | nil =>
    constructor
    · intro h
      exact ⟨p, rfl, h⟩
    · rintro ⟨q, rfl, h⟩
      exact h
  | cons x l₁ ih =>
    constructor
    · rintro ⟨hp, c, hc, hv, hrest⟩
      obtain ⟨q, h₁, h₂⟩ := ih.mp hrest
      exact ⟨q, ⟨hp, c, hc, hv, h₁⟩, h₂⟩
    · rintro ⟨q, ⟨hp, c, hc, hv, h₁⟩, h₂⟩
      exact ⟨hp, c, hc, hv, ih.mpr ⟨q, h₁, h₂⟩⟩

theorem unique (h₁ : Seg next val heap p l₁ none) (h₂ : Seg next val heap p l₂ none) :
    l₁ = l₂ := by
  induction l₁ generalizing p l₂ with
  | nil =>
    cases l₂ with
    | nil => rfl
    | cons y l₂ =>
      cases h₁
      cases h₂.1
  | cons x l₁ ih =>
    obtain ⟨rfl, c, hc, hv, hrest⟩ := h₁
    cases l₂ with
    | nil => cases h₂
    | cons y l₂ =>
      obtain ⟨hxy, c', hc', hv', hrest'⟩ := h₂
      have hplace : x.1 = y.1 := Option.some.inj hxy
      obtain rfl : c = c' := Option.some.inj (hc.symm.trans (hplace ▸ hc'))
      rw [Prod.ext hplace (hv.symm.trans hv'), ih hrest hrest']

/-- From a place that came twice the rest of the list would be two lists. -/
theorem nodup (h : Seg next val heap p l none) : (l.map Prod.fst).Nodup := by
  induction l generalizing p with
  | nil => exact List.nodup_nil
  | cons x l ih =>
    obtain ⟨-, c, hc, -, hrest⟩ := h
    rw [List.map_cons, List.nodup_cons]
    refine ⟨?_, ih hrest⟩
    intro hmem
    obtain ⟨y, hy, hyx⟩ := List.mem_map.mp hmem
    obtain ⟨l₁, l₂, rfl⟩ := List.append_of_mem hy
    obtain ⟨q, -, -, c', hc', -, htail⟩ := append_iff.mp hrest
    obtain rfl : c = c' := Option.some.inj (hc.symm.trans (hyx ▸ hc'))
    have hlen := congrArg List.length (unique hrest htail)
    simp only [List.length_append, List.length_cons] at hlen
    omega

theorem relink [DecidableEq α] (h : Seg next val heap p (l ++ [x]) q) (hx : x.1 ∉ l.map Prod.fst)
    {c : ν} (hv : val c = x.2) :
    Seg next val (Function.update heap x.1 (some c)) p (l ++ [x]) (next c) := by
  obtain ⟨r, h₁, hr, -⟩ := append_iff.mp h
  exact append_iff.mpr ⟨r, h₁.update hx _, hr, c, Function.update_self .., hv, rfl⟩

end Seg

end Chain

end Lib
end UGDS
