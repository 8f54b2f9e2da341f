import Mathlib.Data.List.Basic
import Mathlib.Data.List.Count

/-!
# UGDS.Lib.Ledger

Sequences of acquisitions and releases of resources, and what is held after them.

`held` counts: a release takes back one acquisition of the same resource, in any order, and one of
something not held does nothing. `stack` is strict: only the resource acquired last can be released,
so a sequence that it accepts releases each acquisition at most once and in the opposite order.

* `stack_append`: sequences one after the other.
* `held_of_stack`: the strict reading refines the other one.
* `held_all_released`: what is acquired and then released is not held.
-/

namespace UGDS
namespace Lib

inductive Op (ρ : Type) where
  | acquire (r : ρ)
  | release (r : ρ)
  deriving DecidableEq, Repr

section

variable {ρ : Type} [DecidableEq ρ]

/-- What is held after a sequence, when `l` was held before. -/
def held (l : List ρ) : List (Op ρ) → List ρ
  | [] => l
  | .acquire r :: ops => held (r :: l) ops
  | .release r :: ops => held (l.erase r) ops

/-- The same when only the resource acquired last can be released. -/
def stack (l : List ρ) : List (Op ρ) → Option (List ρ)
  | [] => some l
  | .acquire r :: ops => stack (r :: l) ops
  | .release r :: ops =>
    match l with
    | [] => none
    | x :: l => if x = r then stack l ops else none

theorem stack_append {l : List ρ} {a b : List (Op ρ)} :
    stack l (a ++ b) = (stack l a).bind fun l' => stack l' b := by
  induction a generalizing l with
  | nil => rfl
  | cons op a ih =>
    cases op with
    | acquire r => exact ih
    | release r =>
      cases l with
      | nil => rfl
      | cons x l =>
        simp only [List.cons_append, stack]
        split
        · exact ih
        · rfl

theorem held_of_stack {l l' : List ρ} {ops : List (Op ρ)} (h : stack l ops = some l') :
    held l ops = l' := by
  induction ops generalizing l with
  | nil =>
    cases h
    rfl
  | cons op ops ih =>
    cases op with
    | acquire r => exact ih h
    | release r =>
      cases l with
      | nil => cases h
      | cons x l =>
        simp only [stack] at h
        split at h
        · rename_i hx
          subst hx
          rw [held, List.erase_cons_head]
          exact ih h
        · cases h

theorem held_append {l : List ρ} {a b : List (Op ρ)} : held l (a ++ b) = held (held l a) b := by
  induction a generalizing l with
  | nil => rfl
  | cons op a ih =>
    cases op with
    | acquire r => exact ih
    | release r => exact ih

theorem held_acquires (l rs : List ρ) : held l (rs.map .acquire) = rs.reverse ++ l := by
  induction rs generalizing l with
  | nil => rfl
  | cons r rs ih => simp [held, ih]

theorem held_releases (l rs : List ρ) : held l (rs.map .release) = l.diff rs := by
  induction rs generalizing l with
  | nil => rfl
  | cons r rs ih => simp [held, ih, List.diff_cons]

/-- Releasing at least what was acquired leaves nothing. -/
theorem held_all_released {a b : List ρ} (h : ∀ r, a.count r ≤ b.count r) :
    held [] (a.map .acquire ++ b.map .release) = [] := by
  rw [held_append, held_acquires, List.append_nil, held_releases, List.eq_nil_iff_forall_not_mem]
  intro r hr
  have hpos := List.count_pos_iff.mpr hr
  rw [List.count_diff, List.count_reverse] at hpos
  have := h r
  omega

end

end Lib
end UGDS
