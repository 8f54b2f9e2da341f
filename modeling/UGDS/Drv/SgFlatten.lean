import UGDS.Drv.Map
import UGDS.Lib.Segments

/-!
# UGDS.Drv.SgFlatten

`sg_flatten_to_addrs` (`drv/map.c`), store by store: which elements of `addrs` it writes, also when it
fails, and what they are in terms of the SG table read as one stream of bytes.

* `sgFlatten_eq`: the stores are those of `sgFlattenToAddrs`, at the indices from 0 on.
* `sgFlattenToAddrs_ok`, `sgFlattenToAddrs_error`: it succeeds exactly when every page is within one SG
  entry.
* `sg_flatten_exact`: both together, on the array.
* `sg_flatten_aligned`: when the addresses are page-aligned.
-/

namespace UGDS
namespace Drv

open Lib

/-! ## The stores -/

/-- `while (len >= ctrl_page_size && page_idx < expected_pages)`: the stores `addrs[page_idx++] = addr`
and the length left. The loop takes at most `expected_pages - page_idx` turns. -/
def sgPages (P expected : Nat) :
    (fuel idx : Nat) → BitVec 64 → Nat → List (Nat × BitVec 64) × Nat
  | 0, _, _, len => ([], len)
  | fuel + 1, idx, addr, len =>
    if P ≤ len ∧ idx < expected then
      let rest := sgPages P expected fuel (idx + 1) (addr + BitVec.ofNat 64 P) (len - P)
      ((idx, addr) :: rest.1, rest.2)
    else ([], len)

/-- The loop over the SG entries with `page_idx = idx` and `remaining_offset = off`, and the check
after it: the stores and the error. -/
def sgFlatten (P expected : Nat) :
    List (BitVec 64 × Nat) → (idx off : Nat) → List (Nat × BitVec 64) × Option Errno
  | [], idx, _ => ([], if idx ≠ expected then some .EINVAL else none)
  | (addr, len) :: sgt, idx, off =>
    if 0 < off ∧ len ≤ off then sgFlatten P expected sgt idx (off - len)
    else
      let pages := sgPages P expected (expected - idx) idx (addr + BitVec.ofNat 64 off) (len - off)
      let idx' := idx + pages.1.length
      if 0 < pages.2 ∧ idx' < expected then (pages.1, some .EINVAL)
      else if expected ≤ idx' then (pages.1, if idx' ≠ expected then some .EINVAL else none)
      else
        let rest := sgFlatten P expected sgt idx' 0
        (pages.1 ++ rest.1, rest.2)

section Stores

variable {P expected : Nat}

theorem sgFill_length_le (k : Nat) (addr : BitVec 64) (len : Nat) :
    (sgFill P k addr len).1.length ≤ k := by
  induction k generalizing addr len with
  | zero => exact Nat.le_refl 0
  | succ k ih =>
    simp only [sgFill]
    split
    · exact Nat.succ_le_succ (ih _ _)
    · exact Nat.zero_le _

theorem sgPages_eq (fuel idx : Nat) (addr : BitVec 64) (len : Nat) (h : idx + fuel = expected) :
    sgPages P expected fuel idx addr len =
      (numbered idx (sgFill P fuel addr len).1, (sgFill P fuel addr len).2) := by
  induction fuel generalizing idx addr len with
  | zero => rfl
  | succ fuel ih =>
    have hlt : idx < expected := by omega
    simp only [sgPages, sgFill, hlt, and_true]
    split
    · rw [ih (idx + 1) _ _ (by omega)]
      rfl
    · rfl

/-- The stores of a call from index `idx` on, and how it ends. -/
theorem sgFlatten_eq (sgt : List (BitVec 64 × Nat)) {idx : Nat} (off : Nat) (h : idx ≤ expected) :
    (∀ addrs, sgFlattenToAddrs P sgt (expected - idx) off = .ok addrs →
        sgFlatten P expected sgt idx off = (numbered idx addrs, none)) ∧
      ∀ e, sgFlattenToAddrs P sgt (expected - idx) off = .error e →
        ∃ addrs, addrs.length ≤ expected - idx ∧
          sgFlatten P expected sgt idx off = (numbered idx addrs, some e) := by
  induction sgt generalizing idx off with
  | nil =>
    by_cases he : idx = expected
    · subst he
      simp [sgFlattenToAddrs, sgFlatten, numbered]
    · have hne : expected - idx ≠ 0 := by omega
      simp only [sgFlattenToAddrs, sgFlatten, if_pos hne, if_pos he]
      refine ⟨?_, ?_⟩
      · intro addrs hok
        cases hok
      · intro e herr
        cases herr
        exact ⟨[], Nat.zero_le _, rfl⟩
  | cons x sgt ih =>
    obtain ⟨addr, len⟩ := x
    by_cases hskip : 0 < off ∧ len ≤ off
    · simp only [sgFlattenToAddrs, sgFlatten, if_pos hskip]
      exact ih (off - len) h
    · have hle : (sgFill P (expected - idx) (addr + BitVec.ofNat 64 off) (len - off)).1.length ≤
          expected - idx := sgFill_length_le _ _ _
      simp only [sgFlattenToAddrs, sgFlatten, if_neg hskip,
        sgPages_eq (expected - idx) idx _ _ (Nat.add_sub_cancel' h), numbered_length]
      generalize sgFill P (expected - idx) (addr + BitVec.ofNat 64 off) (len - off) = filled at hle ⊢
      obtain ⟨pages, left⟩ := filled
      simp only at hle ⊢
      by_cases hres : 0 < left ∧ idx + pages.length < expected
      · have hres' : 0 < left ∧ 0 < expected - idx - pages.length := ⟨hres.1, by omega⟩
        simp only [if_pos hres, if_pos hres']
        refine ⟨?_, ?_⟩
        · intro addrs hok
          cases hok
        · intro e herr
          cases herr
          exact ⟨pages, hle, rfl⟩
      · have hres' : ¬(0 < left ∧ 0 < expected - idx - pages.length) :=
          fun hc => hres ⟨hc.1, by omega⟩
        simp only [if_neg hres, if_neg hres']
        by_cases hfull : expected ≤ idx + pages.length
        · have heq : expected - idx - pages.length = 0 := by omega
          have hidx : idx + pages.length = expected := by omega
          rw [if_pos hfull, if_pos heq, if_neg (not_not.mpr hidx)]
          refine ⟨?_, ?_⟩
          · intro addrs hok
            cases hok
            rfl
          · intro e herr
            cases herr
        · have hne : expected - idx - pages.length ≠ 0 := by omega
          simp only [if_neg hfull, if_neg hne]
          obtain ⟨ih1, ih2⟩ := @ih (idx + pages.length) 0 (by omega)
          rw [← Nat.sub_sub] at ih1 ih2
          cases hrest : sgFlattenToAddrs P sgt (expected - idx - pages.length) 0 with
          | ok rest =>
            refine ⟨?_, ?_⟩
            · intro addrs hok
              cases hok
              rw [ih1 rest hrest, numbered_append]
            · intro e herr
              cases herr
          | error e' =>
            refine ⟨?_, ?_⟩
            · intro addrs hok
              cases hok
            · intro e herr
              cases herr
              obtain ⟨addrs, hlen, heq⟩ := ih2 _ hrest
              refine ⟨pages ++ addrs, ?_, by rw [heq, numbered_append]⟩
              rw [List.length_append]
              omega

end Stores

/-! ## The pages -/

section Pages

variable {P : Nat}

/-- As many pages as fit the length and are wanted, one after the other. -/
theorem sgFill_eq (hP : 0 < P) (k : Nat) (addr : BitVec 64) (len : Nat) :
    sgFill P k addr len =
      ((List.range (min k (len / P))).map fun i => addr + BitVec.ofNat 64 (i * P),
        len - min k (len / P) * P) := by
  induction k generalizing addr len with
  | zero => simp [sgFill]
  | succ k ih =>
    simp only [sgFill]
    split
    · rename_i hle
      have hdiv : len / P = (len - P) / P + 1 := Nat.div_eq_sub_div hP hle
      rw [ih, hdiv, Nat.add_min_add_right, List.range_succ_eq_map]
      simp only [List.map_cons, List.map_map, Nat.zero_mul, Nat.add_mul, Nat.one_mul, Nat.sub_sub]
      refine Prod.ext ?_ (by simp only [Nat.add_comm])
      simp only [BitVec.add_zero, List.cons.injEq, true_and]
      refine List.map_congr_left fun i _ => ?_
      simp only [Function.comp, Nat.succ_eq_add_one, Nat.add_mul, Nat.one_mul, BitVec.ofNat_add,
        BitVec.add_assoc]
      rw [BitVec.add_comm (BitVec.ofNat 64 P)]
    · rename_i hlt
      rw [Nat.div_eq_of_lt (by omega), Nat.min_zero]
      simp

/-- The addresses of `n` pages from place `off` of an entry on. -/
def sgRun (P : Nat) (addr : BitVec 64) (off n : Nat) : List (BitVec 64) :=
  (List.range n).map fun i => addr + BitVec.ofNat 64 (off + i * P)

theorem sgRun_length (addr : BitVec 64) (off n : Nat) : (sgRun P addr off n).length = n := by
  simp [sgRun]

theorem sgRun_getElem? {addr : BitVec 64} {off n i : Nat} (hi : i < n) :
    (sgRun P addr off n)[i]? = some (addr + BitVec.ofNat 64 (off + i * P)) := by
  simp [sgRun, hi]

/-- What becomes of the first entry: the offset skips it, page `n` starts but does not end in it, it
has all the pages, or it is used up after `n` of them. -/
inductive SgFirst (P : Nat) (addr : BitVec 64) (len : Nat) (sgt : List (BitVec 64 × Nat)) (k off : Nat)
    (r : Except Errno (List (BitVec 64))) : Prop where
  | skipped (hoff : 0 < off) (hle : len ≤ off) (h : sgFlattenToAddrs P sgt k (off - len) = r)
  | crossed (n : Nat) (hn : n < k) (hin : off + n * P < len) (hend : len < off + n * P + P)
      (h : r = .error .EINVAL)
  | all (hoff : ¬(0 < off ∧ len ≤ off)) (hend : off + k * P ≤ len) (h : r = .ok (sgRun P addr off k))
  | usedUp (n : Nat) (hoff : ¬(0 < off ∧ len ≤ off)) (hn : n < k) (hend : off + n * P = len)
      (h : (sgFlattenToAddrs P sgt (k - n) 0).map (sgRun P addr off n ++ ·) = r)

theorem sgFlattenToAddrs_first (hP : 0 < P) {addr : BitVec 64} {len k off : Nat}
    {sgt : List (BitVec 64 × Nat)} {r : Except Errno (List (BitVec 64))}
    (h : sgFlattenToAddrs P ((addr, len) :: sgt) k off = r) : SgFirst P addr len sgt k off r := by
  by_cases hskip : 0 < off ∧ len ≤ off
  · rw [sgFlattenToAddrs, if_pos hskip] at h
    exact .skipped hskip.1 hskip.2 h
  obtain ⟨n, hn⟩ : ∃ n, n = min k ((len - off) / P) := ⟨_, rfl⟩
  have hfilled : sgFill P k (addr + BitVec.ofNat 64 off) (len - off) =
      (sgRun P addr off n, len - off - n * P) := by
    simp only [sgFill_eq hP, ← hn, sgRun, BitVec.ofNat_add, BitVec.add_assoc]
  have hfit : n * P ≤ len - off := by
    rw [hn]
    exact (Nat.mul_le_mul_right P (Nat.min_le_right _ _)).trans (Nat.div_mul_le_self _ _)
  simp only [sgFlattenToAddrs, if_neg hskip, hfilled, sgRun_length] at h
  split at h
  · rename_i hres
    -- there are no more whole pages in the entry
    have hnd : n = (len - off) / P := by omega
    have hmod := Nat.mod_lt (len - off) hP
    have hdm := Nat.div_add_mod (len - off) P
    rw [Nat.mul_comm, ← hnd] at hdm
    exact .crossed n (by omega) (by omega) (by omega) h.symm
  rename_i hres
  split at h
  · obtain rfl : n = k := by omega
    exact .all hskip (by omega) h.symm
  · refine .usedUp n hskip (by omega) (by omega) ?_
    rw [← h]
    cases sgFlattenToAddrs P sgt (k - n) 0 <;> rfl

/-- The page from byte `b` of the stream on is within an entry, and `a` is its address. -/
def PageAt (P : Nat) (sgt : List (BitVec 64 × Nat)) (b : Nat) (a : Option (BitVec 64)) : Prop :=
  Within sgt b P ∧ ∃ j addr p, locate sgt b = some (j, addr, p) ∧ a = some (addr + BitVec.ofNat 64 p)

theorem PageAt.head (hP : 0 < P) {addr : BitVec 64} {len b : Nat} {sgt : List (BitVec 64 × Nat)}
    (h : b + P ≤ len) : PageAt P ((addr, len) :: sgt) b (some (addr + BitVec.ofNat 64 b)) :=
  ⟨(within_head hP (by omega)).mpr h, 0, addr, b, locate_head (by omega), rfl⟩

theorem PageAt.skip (hP : 0 < P) {addr : BitVec 64} {len b : Nat} {sgt : List (BitVec 64 × Nat)}
    {a : Option (BitVec 64)} (hle : len ≤ b) (h : PageAt P sgt (b - len) a) :
    PageAt P ((addr, len) :: sgt) b a := by
  obtain ⟨hw, j, x, p, hl, ha⟩ := h
  refine ⟨(within_skip hP hle).mpr hw, j + 1, x, p, ?_, ha⟩
  rw [locate_skip hle, hl]
  rfl

/-- Success gives the address of the first byte of each page; every page is within an entry. -/
theorem sgFlattenToAddrs_ok (hP : 0 < P) {sgt : List (BitVec 64 × Nat)} {k off : Nat}
    {addrs : List (BitVec 64)} (h : sgFlattenToAddrs P sgt k off = .ok addrs) :
    addrs.length = k ∧ ∀ i, i < k → PageAt P sgt (off + i * P) addrs[i]? := by
  have hstep {i n : Nat} (hi : i < n) : i * P + P ≤ n * P := by
    rw [← Nat.succ_mul]
    exact Nat.mul_le_mul_right P hi
  induction sgt generalizing k off addrs with
  | nil =>
    simp only [sgFlattenToAddrs] at h
    split at h
    · cases h
    · rename_i hk
      cases h
      obtain rfl : k = 0 := not_not.mp hk
      exact ⟨rfl, fun i hi => absurd hi (Nat.not_lt_zero i)⟩
  | cons x sgt ih =>
    obtain ⟨addr, len⟩ := x
    cases sgFlattenToAddrs_first hP h with
    | skipped hoff hle h =>
      obtain ⟨hlen, hall⟩ := ih h
      refine ⟨hlen, fun i hi => PageAt.skip hP (by omega) ?_⟩
      rw [show off + i * P - len = off - len + i * P by omega]
      exact hall i hi
    | crossed n hn hin hend h => cases h
    | all hoff hend h =>
      cases h
      refine ⟨sgRun_length _ _ _, fun i hi => ?_⟩
      have := hstep hi
      rw [sgRun_getElem? hi]
      exact PageAt.head hP (by omega)
    | usedUp n hoff hn hend h =>
      cases hrest : sgFlattenToAddrs P sgt (k - n) 0 with
      | error e =>
        rw [hrest] at h
        cases h
      | ok rest =>
        rw [hrest] at h
        cases h
        obtain ⟨hlen, hall⟩ := ih hrest
        refine ⟨by rw [List.length_append, sgRun_length, hlen]; omega, fun i hi => ?_⟩
        by_cases hi' : i < n
        · have := hstep hi'
          rw [List.getElem?_append_left (by rwa [sgRun_length]), sgRun_getElem? hi']
          exact PageAt.head hP (by omega)
        · -- the other pages start where the entry ends
          have hsplit : i * P = n * P + (i - n) * P := by
            rw [← Nat.add_mul, Nat.add_sub_cancel' (by omega)]
          rw [List.getElem?_append_right (by rw [sgRun_length]; omega), sgRun_length]
          refine PageAt.skip hP (by omega) ?_
          rw [show off + i * P - len = 0 + (i - n) * P by omega]
          exact hall (i - n) (by omega)

/-- On failure some page crosses the end of an entry, or the end of the table. -/
theorem sgFlattenToAddrs_error (hP : 0 < P) {sgt : List (BitVec 64 × Nat)} {k off : Nat} {e : Errno}
    (h : sgFlattenToAddrs P sgt k off = .error e) :
    ∃ i, i < k ∧ ¬ Within sgt (off + i * P) P := by
  induction sgt generalizing k off e with
  | nil =>
    simp only [sgFlattenToAddrs] at h
    split at h
    · exact ⟨0, by omega, not_within_nil hP⟩
    · cases h
  | cons x sgt ih =>
    obtain ⟨addr, len⟩ := x
    cases sgFlattenToAddrs_first hP h with
    | skipped hoff hle h =>
      obtain ⟨i, hi, hw⟩ := ih h
      refine ⟨i, hi, ?_⟩
      rw [within_skip hP (by omega), show off + i * P - len = off - len + i * P by omega]
      exact hw
    | crossed n hn hin hend h =>
      refine ⟨n, hn, ?_⟩
      rw [within_head hP hin]
      omega
    | all hoff hend h => cases h
    | usedUp n hoff hn hend h =>
      cases hrest : sgFlattenToAddrs P sgt (k - n) 0 with
      | ok rest =>
        rw [hrest] at h
        cases h
      | error e' =>
        obtain ⟨i, hi, hw⟩ := ih hrest
        refine ⟨n + i, by omega, ?_⟩
        rw [Nat.add_mul, within_skip hP (by omega),
          show off + (n * P + i * P) - len = 0 + i * P by omega]
        exact hw

end Pages

/-- `sg_flatten_to_addrs` on any SG table, offset, page count and page size: it returns 0 exactly when
every page is a block of the stream within one entry; then `addrs[k]`, whatever the array held before,
is the address of the first byte of page `k`; and no store is at an index from `expected` on. -/
theorem sg_flatten_exact {P : Nat} (hP : 0 < P) (sgt : List (BitVec 64 × Nat)) (expected off : Nat) :
    let r := sgFlatten P expected sgt 0 off
    (r.2 = none ↔ ∀ k, k < expected → Within sgt (off + k * P) P) ∧
      (r.2 = none → ∀ (addrs : Nat → BitVec 64) (k : Nat), k < expected →
        ∃ j addr p, locate sgt (off + k * P) = some (j, addr, p) ∧
          store addrs r.1 k = addr + BitVec.ofNat 64 p) ∧
      ∀ w ∈ r.1, w.1 < expected := by
  intro r
  obtain ⟨hok, herr⟩ := sgFlatten_eq sgt off (Nat.zero_le expected)
  rw [Nat.sub_zero] at hok herr
  cases hr : sgFlattenToAddrs P sgt expected off with
  | ok addrs =>
    have hr' : r = (numbered 0 addrs, none) := hok addrs hr
    obtain ⟨hlen, hall⟩ := sgFlattenToAddrs_ok hP hr
    rw [hr']
    refine ⟨⟨fun _ k hk => (hall k hk).1, fun _ => rfl⟩, ?_, ?_⟩
    · intro _ addrs₀ k hk
      obtain ⟨-, j, addr, p, hl, ha⟩ := hall k hk
      exact ⟨j, addr, p, hl, by rw [store_numbered, if_pos (Nat.zero_le k), Nat.sub_zero, ha]; rfl⟩
    · intro w hw
      have := (numbered_lt hw).2
      omega
  | error e =>
    obtain ⟨addrs, hlen, hr'⟩ := herr e hr
    have hr' : r = (numbered 0 addrs, some e) := hr'
    obtain ⟨i, hi, hw⟩ := sgFlattenToAddrs_error hP hr
    rw [hr']
    refine ⟨⟨?_, fun hall => absurd (hall i hi) hw⟩, ?_, ?_⟩
    · intro h0
      cases h0
    · intro h0
      cases h0
    · intro w hw
      have := (numbered_lt hw).2
      omega

/-- An offset that ends in the second of three entries, the third one being empty. -/
theorem sg_flatten_exact_three_entries :
    let sgt : List (BitVec 64 × Nat) := [(0x10000#64, 4096), (0x40000#64, 12288), (0x80000#64, 0)]
    (sgFlatten 4096 2 sgt 0 8192).2 = none ∧
      ∀ w ∈ (sgFlatten 4096 2 sgt 0 8192).1, w.1 < 2 := by
  intro sgt
  exact ⟨by decide, (sg_flatten_exact (by decide) sgt 2 8192).2.2⟩

/-! ## Alignment -/

/-- The total length of the entries that the offset skips. -/
def sgSkipped : List (BitVec 64 × Nat) → (off : Nat) → Nat
  | [], _ => 0
  | (_, len) :: sgt, off => if 0 < off ∧ len ≤ off then len + sgSkipped sgt (off - len) else 0

section Aligned

variable {j : Nat}

theorem sgSkipped_le (sgt : List (BitVec 64 × Nat)) (off : Nat) : sgSkipped sgt off ≤ off := by
  induction sgt generalizing off with
  | nil => exact Nat.zero_le off
  | cons x sgt ih =>
    simp only [sgSkipped]
    split
    · rename_i h
      have := ih (off - x.2)
      omega
    · exact Nat.zero_le off

theorem dvd_toNat_add (hj : j ≤ 64) {a : BitVec 64} (ha : 2 ^ j ∣ a.toNat) (p : Nat) :
    2 ^ j ∣ (a + BitVec.ofNat 64 p).toNat ↔ 2 ^ j ∣ p := by
  have hd : 2 ^ j ∣ 2 ^ 64 := Nat.pow_dvd_pow 2 hj
  rw [BitVec.toNat_add, Nat.dvd_mod_iff hd, Nat.dvd_add_right ha, BitVec.toNat_ofNat,
    Nat.dvd_mod_iff hd]

theorem sgRun_aligned (hj : j ≤ 64) {addr : BitVec 64} (ha : 2 ^ j ∣ addr.toNat) (off n : Nat) :
    (∀ a ∈ sgRun (2 ^ j) addr off n, 2 ^ j ∣ a.toNat) ↔ n = 0 ∨ 2 ^ j ∣ off := by
  simp only [sgRun, List.forall_mem_map, List.mem_range, dvd_toNat_add hj ha]
  constructor
  · intro hall
    rcases Nat.eq_zero_or_pos n with h0 | hpos
    · exact .inl h0
    · exact .inr (by simpa using hall 0 hpos)
  · rintro (rfl | hoff) i hi
    · omega
    · exact Nat.dvd_add hoff (Nat.dvd_mul_left _ _)

/-- The first page starts `off - sgSkipped sgt off` bytes into its entry. Behind that entry pages
start where entries start. -/
theorem sgFlattenToAddrs_aligned (hj : j ≤ 64) {sgt : List (BitVec 64 × Nat)}
    (hal : ∀ x ∈ sgt, 2 ^ j ∣ x.1.toNat) {k off : Nat} (hk : 0 < k) {addrs : List (BitVec 64)}
    (h : sgFlattenToAddrs (2 ^ j) sgt k off = .ok addrs) :
    (∀ a ∈ addrs, 2 ^ j ∣ a.toNat) ↔ 2 ^ j ∣ off - sgSkipped sgt off := by
  induction sgt generalizing k off addrs with
  | nil =>
    simp only [sgFlattenToAddrs, if_pos (by omega : k ≠ 0)] at h
    cases h
  | cons x sgt ih =>
    obtain ⟨addr, len⟩ := x
    obtain ⟨ha, hal⟩ := List.forall_mem_cons.mp hal
    cases sgFlattenToAddrs_first (Nat.two_pow_pos j) h with
    | skipped hoff hle h =>
      rw [sgSkipped, if_pos ⟨hoff, hle⟩, ← Nat.sub_sub]
      exact ih hal hk h
    | crossed n hn hin hend h => cases h
    | all hoff hend h =>
      cases h
      rw [sgSkipped, if_neg hoff, Nat.sub_zero, sgRun_aligned hj ha]
      exact or_iff_right (by omega)
    | usedUp n hoff hn hend h =>
      cases hrest : sgFlattenToAddrs (2 ^ j) sgt (k - n) 0 with
      | error e =>
        rw [hrest] at h
        cases h
      | ok rest =>
        rw [hrest] at h
        cases h
        have hrest' := (ih hal (by omega) hrest).mpr (by simp)
        rw [sgSkipped, if_neg hoff, Nat.sub_zero]
        refine List.forall_mem_append.trans ((and_iff_left hrest').trans ?_)
        -- an entry without a page is empty, and then the offset is 0
        refine (sgRun_aligned hj ha off n).trans (or_iff_right_of_imp ?_)
        rintro rfl
        obtain rfl : off = 0 := by omega
        exact Nat.dvd_zero _

end Aligned

/-- An SG table whose entries are page-aligned, a page-aligned offset and any number of pages: if
`sg_flatten_to_addrs` returns 0, every address it stored is page-aligned exactly when no page was asked
for or the entries that the offset skips have a whole number of pages in total. -/
theorem sg_flatten_aligned {j : Nat} (hj : j ≤ 64) {sgt : List (BitVec 64 × Nat)}
    (hal : ∀ x ∈ sgt, 2 ^ j ∣ x.1.toNat) {expected off : Nat} (hoff : 2 ^ j ∣ off)
    (h : (sgFlatten (2 ^ j) expected sgt 0 off).2 = none) :
    (∀ w ∈ (sgFlatten (2 ^ j) expected sgt 0 off).1, 2 ^ j ∣ w.2.toNat) ↔
      expected = 0 ∨ 2 ^ j ∣ sgSkipped sgt off := by
  obtain ⟨hok, herr⟩ := @sgFlatten_eq (2 ^ j) expected sgt 0 off (Nat.zero_le expected)
  rw [Nat.sub_zero] at hok herr
  cases hr : sgFlattenToAddrs (2 ^ j) sgt expected off with
  | error e =>
    obtain ⟨addrs, -, he⟩ := herr e hr
    rw [he] at h
    cases h
  | ok addrs =>
    have hmem : (∀ w ∈ numbered 0 addrs, 2 ^ j ∣ w.2.toNat) ↔ ∀ a ∈ addrs, 2 ^ j ∣ a.toNat := by
      conv_rhs => rw [← numbered_map_snd 0 addrs]
      simp only [List.forall_mem_map]
    rw [hok addrs hr, hmem]
    rcases Nat.eq_zero_or_pos expected with rfl | hpos
    · have hnil := (sgFlattenToAddrs_ok (Nat.two_pow_pos j) hr).1
      rw [List.length_eq_zero_iff.mp hnil]
      simp
    · rw [sgFlattenToAddrs_aligned hj hal hpos hr, Nat.dvd_sub_iff_right (sgSkipped_le sgt off) hoff]
      exact (or_iff_right (by omega)).symm

/-- An offset that skips one entry of one page. -/
theorem sg_flatten_aligned_second_entry :
    let sgt : List (BitVec 64 × Nat) := [(0x10000#64, 4096), (0x40000#64, 8192)]
    (sgFlatten (2 ^ 12) 2 sgt 0 4096).2 = none ∧
      ∀ w ∈ (sgFlatten (2 ^ 12) 2 sgt 0 4096).1, 2 ^ 12 ∣ w.2.toNat := by
  intro sgt
  have h : (sgFlatten (2 ^ 12) 2 sgt 0 4096).2 = none := by decide
  exact ⟨h, (sg_flatten_aligned (by decide) (by decide) (by decide) h).mpr (.inr (by decide))⟩

/-- An offset of one page skips an entry of 100 bytes and ends 3996 bytes into the next one, where
the first page starts. -/
theorem sg_flatten_unaligned :
    ¬ ∀ (j : Nat), j ≤ 64 → ∀ (sgt : List (BitVec 64 × Nat)), (∀ x ∈ sgt, 2 ^ j ∣ x.1.toNat) →
      ∀ (expected off : Nat), 2 ^ j ∣ off → (sgFlatten (2 ^ j) expected sgt 0 off).2 = none →
        ∀ w ∈ (sgFlatten (2 ^ j) expected sgt 0 off).1, 2 ^ j ∣ w.2.toNat := by
  intro h
  exact absurd (h 12 (by decide) [(0x10000#64, 100), (0x20000#64, 12288)] (by decide) 1 4096
    (by decide) (by decide)) (by decide)

end Drv
end UGDS
