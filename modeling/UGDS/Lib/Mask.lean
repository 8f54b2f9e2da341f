import Mathlib.Tactic.Common
import Mathlib.Data.Nat.Bitwise

/-!
# UGDS.Lib.Mask

Rounding with a mask. On `w`-bit words `~(2^k - 1)` is `2^w - 2^k`, and masking with it rounds
down to a multiple of `2^k`.

* `and_mask`: the mask as a division.
* `mask_of_dvd`: multiples are left alone.
* `alignUp_bounds`, `alignUp_wrap`: rounding up, as long as nothing is lost, and to 0 otherwise.
* `alignUp_of_dvd`: rounding up leaves multiples alone too.
-/

namespace UGDS
namespace Lib

/-- `x & ~(m - 1)` on `w`-bit words. -/
def mask (w x m : Nat) : Nat := x &&& (2 ^ w - m)

theorem testBit_mask {w k : Nat} (hk : k ≤ w) (i : Nat) :
    (2 ^ w - 2 ^ k).testBit i = (decide (k ≤ i) && decide (i < w)) := by
  have hpos : 0 < 2 ^ k := Nat.two_pow_pos k
  have hle : 2 ^ k ≤ 2 ^ w := Nat.pow_le_pow_right (by decide) hk
  have he : 2 ^ w - 2 ^ k = 2 ^ w - ((2 ^ k - 1) + 1) := by omega
  rw [he, Nat.testBit_two_pow_sub_succ (by omega), Nat.testBit_two_pow_sub_one]
  by_cases h : i < k
  · simp [h, Nat.not_le.mpr h]
  · simp [h, Nat.le_of_not_lt h]

theorem and_mask {w k x : Nat} (hk : k ≤ w) (hx : x < 2 ^ w) :
    mask w x (2 ^ k) = x / 2 ^ k * 2 ^ k := by
  apply Nat.eq_of_testBit_eq
  intro i
  rw [mask, Nat.testBit_and, testBit_mask hk, Nat.testBit_mul_two_pow, Nat.testBit_div_two_pow]
  by_cases h : k ≤ i
  · by_cases hi : i < w
    · simp [h, hi, Nat.sub_add_cancel h]
    · have : x.testBit i = false :=
        Nat.testBit_lt_two_pow (hx.trans_le (Nat.pow_le_pow_right (by decide) (Nat.le_of_not_lt hi)))
      simp [h, this, Nat.sub_add_cancel h]
  · simp [h]

theorem mask_of_dvd {w k x : Nat} (hk : k ≤ w) (hx : x < 2 ^ w) (h : 2 ^ k ∣ x) :
    mask w x (2 ^ k) = x := by
  rw [and_mask hk hx, Nat.div_mul_cancel h]

/-! ## Rounding up -/

/-- `(x + m - 1) & ~(m - 1)` on `w`-bit words. -/
def alignUp (w x m : Nat) : Nat := mask w ((m + x - 1) % 2 ^ w) m

section

variable {w k x : Nat}

theorem alignUp_eq (hk : k ≤ w) (x : Nat) :
    alignUp w x (2 ^ k) = (2 ^ k + x - 1) % 2 ^ w / 2 ^ k * 2 ^ k :=
  and_mask hk (Nat.mod_lt _ (Nat.two_pow_pos w))

theorem dvd_alignUp (hk : k ≤ w) (x : Nat) : 2 ^ k ∣ alignUp w x (2 ^ k) := by
  rw [alignUp_eq hk]
  exact Nat.dvd_mul_left _ _

theorem alignUp_lt (hk : k ≤ w) (x : Nat) : alignUp w x (2 ^ k) < 2 ^ w := by
  rw [alignUp_eq hk]
  exact (Nat.div_mul_le_self _ _).trans_lt (Nat.mod_lt _ (Nat.two_pow_pos w))

theorem alignUp_bounds (hk : k ≤ w) (h : 2 ^ k + x - 1 < 2 ^ w) :
    x ≤ alignUp w x (2 ^ k) ∧ alignUp w x (2 ^ k) < x + 2 ^ k := by
  have hpos := Nat.two_pow_pos k
  rw [alignUp_eq hk, Nat.mod_eq_of_lt h]
  have hdiv := Nat.div_add_mod' (2 ^ k + x - 1) (2 ^ k)
  have hmod := Nat.mod_lt (2 ^ k + x - 1) hpos
  omega

/-- What is left of a sum that wraps around is less than a page. -/
theorem alignUp_wrap (hk : k ≤ w) (hx : x < 2 ^ w) (h : 2 ^ w ≤ 2 ^ k + x - 1) :
    alignUp w x (2 ^ k) = 0 := by
  have hle : 2 ^ k ≤ 2 ^ w := Nat.pow_le_pow_right (by decide) hk
  have hrest : (2 ^ k + x - 1) % 2 ^ w = 2 ^ k + x - 1 - 2 ^ w := by
    rw [Nat.mod_eq_sub_mod h]
    exact Nat.mod_eq_of_lt (by omega)
  rw [alignUp_eq hk, hrest, Nat.div_eq_of_lt (by omega), Nat.zero_mul]

theorem alignUp_of_dvd (hk : k ≤ w) (hx : x < 2 ^ w) (h : 2 ^ k ∣ x) : alignUp w x (2 ^ k) = x := by
  have hpos := Nat.two_pow_pos k
  -- the next multiple is at most `2^w`, which is one itself
  have hnext : x + 2 ^ k ≤ 2 ^ w := by
    obtain ⟨q, rfl⟩ := h
    obtain ⟨n, hn⟩ := Nat.pow_dvd_pow 2 hk
    rw [hn] at hx ⊢
    have hq : q + 1 ≤ n := Nat.lt_of_mul_lt_mul_left hx
    calc 2 ^ k * q + 2 ^ k = 2 ^ k * (q + 1) := (Nat.mul_succ _ _).symm
      _ ≤ 2 ^ k * n := Nat.mul_le_mul_left _ hq
  obtain ⟨hle, hlt⟩ := alignUp_bounds hk (by omega : 2 ^ k + x - 1 < 2 ^ w)
  have hdvd : 2 ^ k ∣ alignUp w x (2 ^ k) - x := Nat.dvd_sub (dvd_alignUp hk x) h
  have hzero := Nat.eq_zero_of_dvd_of_lt hdvd (by omega)
  omega

end

end Lib
end UGDS
