import UGDS.Lib.Monitor

/-!
# UGDS.Lib.Holding

References to an object that the threads of a monitor take and give back, with a counter under the
lock. `held` is the number of references that no call is about to give back; a call that has a
reference of its own is at a point with `counted`, and one that is about to count a new one at a point
with `getting`.

* `Holding.refs`: the references that the counter should count.
* `Holding.Kept`: who takes a reference still has another one.
* `Holding.last`: a call that holds the lock and the last reference is alone with the object.
-/

namespace UGDS
namespace Lib

structure Holding (σ π : Type) where
  held : σ → Nat
  counted : π → Bool
  getting : π → Bool

namespace Holding

variable {σ π ε κ : Type} (H : Holding σ π)

def refs (m : Monitor σ π) : Nat := H.held m.shared + m.threads.countP H.counted

def Kept (m : Monitor σ π) : Prop := (∃ p ∈ m.threads, H.getting p = true) → 0 < H.held m.shared

instance (m : Monitor σ π) : Decidable (H.Kept m) := inferInstanceAs (Decidable (_ → _))

variable {H} {m : Monitor σ π} {s : σ} {p q : π} {lock : Option Nat}

theorem refs_perm {rest : List π} (h : m.threads.Perm (p :: rest)) :
    H.refs m = H.held m.shared + ((H.counted p).toNat + rest.countP H.counted) := by
  rw [refs, h.countP_eq, List.countP_cons, Nat.add_comm (rest.countP _)]
  cases H.counted p <;> rfl

/-- The references after a step. -/
theorem refs_set {j : Nat} (hp : m.threads[j]? = some p) :
    H.refs ⟨s, lock, m.threads.set j q⟩ + H.held m.shared + (H.counted p).toNat =
      H.refs m + H.held s + (H.counted q).toNat := by
  obtain ⟨rest, hold, hnew⟩ := Monitor.threads_perm hp q
  rw [refs_perm hold, refs_perm (m := ⟨s, lock, m.threads.set j q⟩) hnew]
  simp only
  omega

/-- The references after a call has begun. -/
theorem refs_append :
    H.refs ⟨s, lock, m.threads ++ [p]⟩ + H.held m.shared =
      H.refs m + H.held s + (H.counted p).toNat := by
  simp only [refs, List.countP_append, List.countP_singleton]
  cases H.counted p <;> simp <;> omega

theorem refs_of_not_counted (h : ∀ p ∈ m.threads, H.counted p = false) :
    H.refs m = H.held m.shared := by
  rw [refs, List.countP_eq_zero.mpr fun p hp => by rw [h p hp]; decide, Nat.add_zero]

/-- The last reference is the one of a call that has the lock. -/
theorem last {P : Program σ π ε κ} (hex : Monitor.Exclusive P m) (hk : H.Kept m) {j : Nat}
    (hp : m.threads[j]? = some p) (hl : P.locked p = true) (hc : H.counted p = true)
    (hone : H.refs m = 1) (q : π) :
    H.held m.shared = 0 ∧ ∃ rest, (m.threads.set j q).Perm (q :: rest) ∧
      ∀ r ∈ rest, r ∈ m.threads ∧ H.counted r = false ∧ H.getting r = false ∧ P.locked r = false := by
  obtain ⟨rest, hold, hnew, hfree⟩ := hex.others hp hl q
  have hrefs := refs_perm (H := H) hold
  rw [hone, hc, Bool.toNat_true] at hrefs
  have hheld : H.held m.shared = 0 := by omega
  have hnone : rest.countP H.counted = 0 := by omega
  refine ⟨hheld, rest, hnew, fun r hr => ?_⟩
  have hmem : r ∈ m.threads := hold.mem_iff.mpr (List.mem_cons_of_mem _ hr)
  refine ⟨hmem, Bool.eq_false_iff.mpr (List.countP_eq_zero.mp hnone r hr),
    Bool.eq_false_iff.mpr fun hg => ?_, hfree r hr⟩
  exact absurd (hk ⟨r, hmem, hg⟩) (by omega)

end Holding
end Lib
end UGDS
