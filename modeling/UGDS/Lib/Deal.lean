import Mathlib.Data.Int.CardIntervalMod

/-!
# UGDS.Lib.Deal

Dealing consecutive tickets out to `n` places: ticket `k` goes to place `k % n`, and the tickets are
printed by a counter that starts again at 0 after `l` of them, so that what is dealt is `k % l % n`.

* `count_dealt`: how many of the first `m` tickets a place gets.
* `dealt_balanced`: from any ticket on, two places differ by at most one ticket and one more for each
  restart of the counter; the restarts cost nothing when `n` divides `l`.
-/

namespace UGDS
namespace Lib

/-- The tickets among the first `m` that place `i` of `n` gets while the counter does not restart. -/
def dealtShare (n i m : Nat) : Nat := m / n + if i < m % n then 1 else 0

theorem count_congr_below {p q : Nat → Prop} [DecidablePred p] [DecidablePred q] {m : Nat}
    (h : ∀ k < m, p k ↔ q k) : m.count p = m.count q :=
  le_antisymm (Nat.count_mono_left fun k hk => (h k hk).mp)
    (Nat.count_mono_left fun k hk => (h k hk).mpr)

theorem count_mod_eq {n i : Nat} (hi : i < n) (m : Nat) :
    m.count (fun k => k % n = i) = dealtShare n i m := by
  have hcongr : m.count (fun k => k % n = i) = m.count (· ≡ i [MOD n]) := by
    apply count_congr_below
    intro k _
    rw [Nat.ModEq, Nat.mod_eq_of_lt hi]
  rw [hcongr, Nat.count_modEq_card m (Nat.zero_lt_of_lt hi), Nat.mod_eq_of_lt hi, dealtShare]

/-- A lap of the counter, or a part of one. -/
theorem count_lap {l n i : Nat} (hi : i < n) (w : Nat) {m : Nat} (hm : m ≤ l) :
    m.count (fun k => (l * w + k) % l % n = i) = dealtShare n i m := by
  rw [← count_mod_eq hi]
  apply count_congr_below
  intro k hk
  rw [Nat.mul_add_mod, Nat.mod_eq_of_lt (hk.trans_le hm)]

theorem count_laps {l n i : Nat} (hi : i < n) (w : Nat) :
    (l * w).count (fun k => k % l % n = i) = w * dealtShare n i l := by
  induction w with
  | zero => simp
  | succ w ih => rw [Nat.mul_succ, Nat.count_add, ih, count_lap hi w le_rfl, Nat.succ_mul]

theorem count_dealt {l n i : Nat} (hl : 0 < l) (hi : i < n) (m : Nat) :
    m.count (fun k => k % l % n = i) = m / l * dealtShare n i l + dealtShare n i (m % l) := by
  conv_lhs => rw [← Nat.div_add_mod m l]
  rw [Nat.count_add, count_laps hi, count_lap hi _ (Nat.mod_lt m hl).le]

/-- Two places get the same number of tickets, or the first of the two one more. -/
theorem dealtShare_cases {n i j : Nat} (hij : i ≤ j) (m : Nat) :
    dealtShare n i m = dealtShare n j m ∨ dealtShare n i m = dealtShare n j m + 1 := by
  unfold dealtShare
  split <;> split <;> omega

theorem dealtShare_of_dvd {n m : Nat} (h : n ∣ m) (i : Nat) : dealtShare n i m = m / n := by
  rw [dealtShare, Nat.mod_eq_zero_of_dvd h]
  simp

/-- How far the restarts of the counter up to ticket `m` can bring two places apart. -/
def dealtSkew (l n m : Nat) : Nat := if n ∣ l then 0 else m / l

theorem laps_skew {l n i j : Nat} (m : Nat) :
    m / l * dealtShare n i l ≤ m / l * dealtShare n j l + dealtSkew l n m := by
  unfold dealtSkew
  split
  · rename_i hd
    rw [dealtShare_of_dvd hd, dealtShare_of_dvd hd, Nat.add_zero]
  · have hle : dealtShare n i l ≤ dealtShare n j l + 1 := by
      unfold dealtShare
      split <;> split <;> omega
    calc m / l * dealtShare n i l ≤ m / l * (dealtShare n j l + 1) := Nat.mul_le_mul_left _ hle
      _ = m / l * dealtShare n j l + m / l := Nat.mul_succ _ _

/-- The tickets `r, r + 1, …, r + m - 1`, the first of which is from the first lap. -/
theorem dealt_balanced {l n i j : Nat} (hi : i < n) (hj : j < n) {r : Nat} (hr : r < l) (m : Nat) :
    m.count (fun k => (r + k) % l % n = i) ≤
      m.count (fun k => (r + k) % l % n = j) + 1 + dealtSkew l n (r + m) := by
  have hl : 0 < l := by omega
  have hsplit : ∀ i < n, r.count (fun k => k % l % n = i) + m.count (fun k => (r + k) % l % n = i) =
      (r + m) / l * dealtShare n i l + dealtShare n i ((r + m) % l) := by
    intro i hi
    rw [← Nat.count_add, count_dealt hl hi]
  have hfirst : ∀ i < n, r.count (fun k => k % l % n = i) = dealtShare n i r := by
    intro i hi
    rw [count_dealt hl hi, Nat.div_eq_of_lt hr, Nat.mod_eq_of_lt hr, Nat.zero_mul, Nat.zero_add]
  have hsi := hsplit i hi
  have hsj := hsplit j hj
  rw [hfirst i hi] at hsi
  rw [hfirst j hj] at hsj
  have hlaps := @laps_skew l n i j (r + m)
  -- the two ends of the row of tickets favour the same one of the two places
  rcases Nat.le_total i j with hij | hij
  · have h₁ := dealtShare_cases (n := n) hij r
    have h₂ := dealtShare_cases (n := n) hij ((r + m) % l)
    omega
  · have h₁ := dealtShare_cases (n := n) hij r
    have h₂ := dealtShare_cases (n := n) hij ((r + m) % l)
    omega

end Lib
end UGDS
