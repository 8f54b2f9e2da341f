import Mathlib.Logic.Function.Basic
import Mathlib.Data.List.Basic

/-!
# UGDS.Lib.Segments

A sequence of segments of given lengths, read as one stream of bytes, and arrays that are filled from
one index on.

* `locate`: the segment that holds a byte of the stream, and the byte's place in it.
* `Within`: a block of bytes exists and is in one segment; `within_skip` and `within_head` decide it
  one segment at a time.
* `store_numbered`: what an array holds after consecutive stores.
-/

namespace UGDS
namespace Lib

section Locate

variable {α : Type} {a : α} {len b n : Nat} {segs : List (α × Nat)}

/-- The number of the segment that holds byte `j`, the segment, and the byte's place in it. -/
def locate : List (α × Nat) → Nat → Option (Nat × α × Nat)
  | [], _ => none
  | (a, len) :: segs, j =>
    if j < len then some (0, a, j) else (locate segs (j - len)).map fun x => (x.1 + 1, x.2)

/-- The `n` bytes from byte `b` on exist and are in one segment. -/
def Within (segs : List (α × Nat)) (b n : Nat) : Prop :=
  ∃ i, ∀ j, b ≤ j → j < b + n → ∃ x, locate segs j = some (i, x)

theorem locate_head (h : b < len) : locate ((a, len) :: segs) b = some (0, a, b) := by
  rw [locate, if_pos h]

theorem locate_skip (h : len ≤ b) :
    locate ((a, len) :: segs) b = (locate segs (b - len)).map fun x => (x.1 + 1, x.2) := by
  rw [locate, if_neg (by omega)]

theorem not_within_nil (hn : 0 < n) : ¬ Within ([] : List (α × Nat)) b n := by
  rintro ⟨i, h⟩
  obtain ⟨x, hx⟩ := h b (Nat.le_refl b) (by omega)
  cases hx

/-- A block that starts in the first segment has to end there. -/
theorem within_head (hn : 0 < n) (h : b < len) : Within ((a, len) :: segs) b n ↔ b + n ≤ len := by
  constructor
  · rintro ⟨i, hall⟩
    obtain ⟨x, hx⟩ := hall b (Nat.le_refl b) (by omega)
    rw [locate_head h] at hx
    cases hx
    by_contra hlt
    -- the byte after the segment is in a later one
    obtain ⟨y, hy⟩ := hall len (by omega) (by omega)
    rw [locate_skip (Nat.le_refl _)] at hy
    obtain ⟨z, -, hz⟩ := Option.map_eq_some_iff.mp hy
    cases hz
  · intro hle
    exact ⟨0, fun j _ hj => ⟨_, locate_head (by omega)⟩⟩

/-- A block that starts behind the first segment is a block of the rest. -/
theorem within_skip (hn : 0 < n) (h : len ≤ b) :
    Within ((a, len) :: segs) b n ↔ Within segs (b - len) n := by
  constructor
  · rintro ⟨i, hall⟩
    obtain ⟨x, hx⟩ := hall b (Nat.le_refl b) (by omega)
    rw [locate_skip h] at hx
    obtain ⟨y, -, hy⟩ := Option.map_eq_some_iff.mp hx
    cases hy
    refine ⟨y.1, fun j hj hj' => ?_⟩
    obtain ⟨z, hz⟩ := hall (j + len) (by omega) (by omega)
    rw [locate_skip (by omega), Nat.add_sub_cancel] at hz
    obtain ⟨w, hw, he⟩ := Option.map_eq_some_iff.mp hz
    simp only [Prod.mk.injEq, Nat.add_right_cancel_iff] at he
    exact ⟨w.2, by rw [hw, ← he.1]⟩
  · rintro ⟨i, hall⟩
    refine ⟨i + 1, fun j hj hj' => ?_⟩
    obtain ⟨x, hx⟩ := hall (j - len) (by omega) (by omega)
    exact ⟨x, by rw [locate_skip (by omega), hx]; rfl⟩

end Locate

section Store

variable {α : Type}

/-- The values of a list with the indices they are stored at, from `i` on. -/
def numbered : Nat → List α → List (Nat × α)
  | _, [] => []
  | i, x :: xs => (i, x) :: numbered (i + 1) xs

/-- An array after a sequence of stores. -/
def store (m : Nat → α) (ws : List (Nat × α)) : Nat → α :=
  ws.foldl (fun m w => Function.update m w.1 w.2) m

theorem numbered_append (i : Nat) (xs ys : List α) :
    numbered i (xs ++ ys) = numbered i xs ++ numbered (i + xs.length) ys := by
  induction xs generalizing i with
  | nil => rfl
  | cons x xs ih =>
    rw [List.cons_append, numbered, ih, numbered, List.cons_append, List.length_cons,
      show i + 1 + xs.length = i + (xs.length + 1) by omega]

theorem numbered_length (i : Nat) (xs : List α) : (numbered i xs).length = xs.length := by
  induction xs generalizing i with
  | nil => rfl
  | cons x xs ih => rw [numbered, List.length_cons, ih, List.length_cons]

theorem numbered_map_snd (i : Nat) (xs : List α) : (numbered i xs).map Prod.snd = xs := by
  induction xs generalizing i with
  | nil => rfl
  | cons x xs ih => rw [numbered, List.map_cons, ih]

theorem numbered_lt {i : Nat} {xs : List α} {w : Nat × α} (h : w ∈ numbered i xs) :
    i ≤ w.1 ∧ w.1 < i + xs.length := by
  induction xs generalizing i with
  | nil => cases h
  | cons x xs ih =>
    rw [List.length_cons]
    rcases List.mem_cons.mp h with rfl | h
    · exact ⟨Nat.le_refl _, by omega⟩
    · have := ih h
      omega

/-- Each element is where it was stored, and the rest of the array is as before. -/
theorem store_numbered (m : Nat → α) (i : Nat) (xs : List α) (k : Nat) :
    store m (numbered i xs) k = if i ≤ k then (xs[k - i]?).getD (m k) else m k := by
  induction xs generalizing m i with
  | nil => simp [numbered, store]
  | cons x xs ih =>
    rw [numbered, store, List.foldl_cons]
    refine (ih _ _).trans ?_
    by_cases hk : k = i
    · subst hk
      rw [if_neg (by omega), if_pos (Nat.le_refl k), Function.update_self, Nat.sub_self,
        List.getElem?_cons_zero, Option.getD_some]
    · rw [Function.update_of_ne hk]
      by_cases hik : i ≤ k
      · rw [if_pos (by omega), if_pos hik, show k - i = k - (i + 1) + 1 by omega,
          List.getElem?_cons_succ]
      · rw [if_neg (by omega), if_neg hik]

end Store

end Lib
end UGDS
