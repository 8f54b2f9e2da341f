import Mathlib.Tactic.WLOG

/-!
# UGDS.Lib.Ring

Cursors of a ring of `n` slots, counted and not reset. A cursor that starts at slot 0 and moves
one slot at a time is after `c` moves at slot `c % n`; the number of laps it has made is `c / n`.
A bit that starts at 1 and flips on each wrap is `lapBit n c`: this is the phase tag of rings whose
consumer recognises fresh entries by a bit stored in the slot.

* `ringNext_mod`, `lapBit_succ`: one move of a cursor and of its bit.
* `ringNext_eq_iff`: when the next move of a cursor reaches another one.
* `mod_inj_window`: two counts less than one lap apart with the same slot are equal.
* `ring_distance`: a wrapping subtraction of two cursors gives their distance.
* `lapBit_add_lap`: one lap later the bit is the other one, so a stale tag never looks fresh.
-/

namespace UGDS
namespace Lib

/-- The slot after `i` in a ring of `n` slots. -/
def ringNext (n i : Nat) : Nat := if i + 1 = n then 0 else i + 1

theorem ringNext_mod {n : Nat} (hn : 0 < n) (c : Nat) : ringNext n (c % n) = (c + 1) % n := by
  have hlt : c % n < n := Nat.mod_lt c hn
  have hadd : (c + 1) % n = (c % n + 1) % n := by rw [Nat.mod_add_mod]
  unfold ringNext
  split
  · rename_i h
    rw [hadd, h, Nat.mod_self]
  · rename_i h
    rw [hadd]
    exact (Nat.mod_eq_of_lt (by omega)).symm

/-- One slot lies between two cursors exactly when the next move makes them meet. -/
theorem ringNext_eq_iff {n i j : Nat} (hi : i < n) (hj : j < n) :
    ringNext n i = j ↔ (i + n - j) % n = n - 1 := by
  by_cases hle : j ≤ i
  · rw [show i + n - j = i - j + n by omega, Nat.add_mod_right, Nat.mod_eq_of_lt (by omega), ringNext]
    split <;> omega
  · rw [Nat.mod_eq_of_lt (by omega), ringNext]
    split <;> omega

/-- Two counts less than one lap apart that stand at the same slot are equal. -/
theorem mod_inj_window {n a b : Nat} (h : a % n = b % n) (h₁ : a < b + n) (h₂ : b < a + n) :
    a = b := by
  wlog hab : a ≤ b generalizing a b
  · exact (this h.symm h₂ h₁ (by omega)).symm
  have hz : (b - a) % n = 0 := Nat.sub_mod_eq_zero_of_mod_eq h.symm
  have : b - a = 0 := by
    rw [← Nat.mod_eq_of_lt (show b - a < n by omega)]
    exact hz
  omega

/-- The distance between two cursors `d < n` apart, as computed by a subtraction that wraps at a
multiple `m` of the ring size. -/
theorem ring_distance {n m u d : Nat} (hnm : n ∣ m) (hm : n ≤ m) (hd : d < n) :
    ((u + d) % n + (m - u % n)) % n = d := by
  have hn : 0 < n := by omega
  have hu : u % n < n := Nat.mod_lt u hn
  have hadd : (u + d) % n = (u % n + d) % n := by rw [Nat.mod_add_mod]
  obtain ⟨k, rfl⟩ := hnm
  by_cases hw : u % n + d < n
  · rw [hadd, Nat.mod_eq_of_lt hw, show u % n + d + (n * k - u % n) = d + n * k by omega,
      Nat.add_mul_mod_self_left, Nat.mod_eq_of_lt hd]
  · have hs : (u % n + d) % n = u % n + d - n := by
      rw [Nat.mod_eq_sub_mod (by omega), Nat.mod_eq_of_lt (by omega)]
    rw [hadd, hs, ← Nat.add_mod_right,
      show u % n + d - n + (n * k - u % n) + n = d + n * k by omega,
      Nat.add_mul_mod_self_left, Nat.mod_eq_of_lt hd]

/-- Whether the lap of the `c`-th slot visited is an even one. -/
def lapBit (n c : Nat) : Bool := decide (c / n % 2 = 0)

theorem lapBit_zero (n : Nat) : lapBit n 0 = true := by
  simp [lapBit]

theorem lapBit_succ (n c : Nat) :
    lapBit n (c + 1) = if (c + 1) % n = 0 then !lapBit n c else lapBit n c := by
  unfold lapBit
  rw [Nat.succ_div]
  by_cases h : n ∣ c + 1
  · rw [if_pos h, if_pos (Nat.mod_eq_zero_of_dvd h)]
    by_cases he : c / n % 2 = 0
    · have : ¬ (c / n + 1) % 2 = 0 := by omega
      simp [he, this]
    · have : (c / n + 1) % 2 = 0 := by omega
      simp [he, this]
  · rw [if_neg h, if_neg (fun h0 => h (Nat.dvd_of_mod_eq_zero h0))]
    simp

theorem lapBit_add_lap {n : Nat} (hn : 0 < n) (c : Nat) : lapBit n (c + n) = !lapBit n c := by
  unfold lapBit
  rw [Nat.add_div_right c hn]
  by_cases he : c / n % 2 = 0
  · have : ¬ (c / n + 1) % 2 = 0 := by omega
    simp [he, this]
  · have : (c / n + 1) % 2 = 0 := by omega
    simp [he, this]

theorem lapBit_of_lt {n c : Nat} (h : c < n) : lapBit n c = true := by
  simp [lapBit, Nat.div_eq_of_lt h]

end Lib
end UGDS
