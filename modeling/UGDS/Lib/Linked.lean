import Mathlib.Data.List.Chain
import Mathlib.Data.List.Nodup

/-!
# UGDS.Lib.Linked

Circular doubly linked lists over an arbitrary type of places. The links are two partial functions
`next` and `prev`; a ring goes from its head through a sequence of elements back to the head.

* `LinkedRing.insert`, `LinkedRing.remove`: relinking a ring around one element; `LinkedRing.frame`:
  links elsewhere do not matter.
* `LinkedRing.next_prev`, `LinkedRing.prev_next`: the links are inverse to each other.
* `LinkedRing.walk_eq`: following `next` until the head visits the sequence and ends.
-/

namespace UGDS
namespace Lib

section Linked

variable {α : Type} {next prev next' prev' : α → Option α} {h e : α} {xs ys : List α}

/-- `b` comes after `a`, seen from both. -/
def Adj (next prev : α → Option α) (a b : α) : Prop := next a = some b ∧ prev b = some a

/-- The links lead from the head `h` through `xs` back to `h`. -/
structure LinkedRing (next prev : α → Option α) (h : α) (xs : List α) : Prop where
  chain : (h :: xs ++ [h]).IsChain (Adj next prev)
  nodup : (h :: xs).Nodup

/-- A chain uses `next` of all but its last element and `prev` of all but its first. -/
theorem isChain_frame {l : List α} (hc : l.IsChain (Adj next prev))
    (hn : ∀ a ∈ l.dropLast, next' a = next a) (hp : ∀ b ∈ l.tail, prev' b = prev b) :
    l.IsChain (Adj next' prev') := by
  rw [List.isChain_iff_forall_rel_of_append_cons_cons] at hc ⊢
  intro a b l₁ l₂ hl
  have ha : a ∈ l.dropLast := by
    rw [hl, List.dropLast_append_of_ne_nil (by simp), List.dropLast_cons_cons]
    simp
  have hb : b ∈ l.tail := by
    rw [hl]
    cases l₁ <;> simp
  obtain ⟨h1, h2⟩ := hc hl
  exact ⟨(hn a ha).trans h1, (hp b hb).trans h2⟩

/-- The element before the head. -/
theorem exists_concat (h : α) (xs : List α) : ∃ zs z, h :: xs = zs ++ [z] := by
  obtain hnil | ⟨zs, z, hz⟩ := List.eq_nil_or_concat (h :: xs)
  · cases hnil
  · exact ⟨zs, z, hz.trans List.concat_eq_append⟩

/-- The element after the last one. -/
theorem exists_cons (ys : List α) (h : α) : ∃ w ws, ys ++ [h] = w :: ws := by
  cases ys with
  | nil => exact ⟨h, [], rfl⟩
  | cons y ys => exact ⟨y, ys ++ [h], rfl⟩

namespace LinkedRing

/-- A head that is linked to itself. -/
theorem empty (hn : next h = some h) (hp : prev h = some h) : LinkedRing next prev h [] :=
  ⟨List.isChain_pair.mpr ⟨hn, hp⟩, List.nodup_singleton h⟩

theorem frame (hr : LinkedRing next prev h xs)
    (hl : ∀ a ∈ h :: xs, next' a = next a ∧ prev' a = prev a) : LinkedRing next' prev' h xs := by
  refine ⟨isChain_frame hr.chain ?_ ?_, hr.nodup⟩
  · intro a ha
    rw [List.dropLast_concat] at ha
    exact (hl a ha).1
  · intro b hb
    refine (hl b ?_).2
    rw [List.cons_append, List.tail_cons, List.mem_append, List.mem_singleton] at hb
    rw [List.mem_cons]
    exact hb.symm

theorem exists_last (hr : LinkedRing next prev h xs) : ∃ last ∈ h :: xs, prev h = some last := by
  obtain ⟨zs, z, hz⟩ := exists_concat h xs
  have hc := hr.chain
  rw [hz, List.append_assoc, List.singleton_append, List.isChain_append_cons_cons] at hc
  exact ⟨z, by rw [hz]; simp, hc.2.1.2⟩

/-- Linking a new element in before the head. -/
theorem insert [DecidableEq α] (hr : LinkedRing next prev h xs) (he : e ∉ h :: xs) {last : α}
    (hlast : prev h = some last)
    (hn : ∀ a, next' a = if a = e then some h else if a = last then some e else next a)
    (hp : ∀ a, prev' a = if a = h then some e else if a = e then some last else prev a) :
    LinkedRing next' prev' h (xs ++ [e]) := by
  obtain ⟨zs, z, hz⟩ := exists_concat h xs
  have hc := hr.chain
  have hnodup := hr.nodup
  rw [hz, List.append_assoc, List.singleton_append, List.isChain_append_cons_cons] at hc
  obtain ⟨hfront, ⟨-, hzh⟩, -⟩ := hc
  obtain rfl : z = last := Option.some.inj (hzh.symm.trans hlast)
  have heh : e ≠ h := fun heq => he (heq ▸ List.mem_cons_self)
  have hez : z ≠ e := fun heq => he (heq ▸ hz ▸ by simp)
  refine ⟨?_, ?_⟩
  · rw [← List.cons_append, hz, List.append_assoc, List.append_assoc, List.singleton_append,
      List.singleton_append, List.isChain_append_cons_cons]
    refine ⟨isChain_frame hfront ?_ ?_, ⟨?_, ?_⟩, List.isChain_pair.mpr ⟨?_, ?_⟩⟩
    · intro a ha
      rw [List.dropLast_concat] at ha
      have hae : a ≠ e := fun heq => he (heq ▸ hz ▸ by simp [ha])
      have haz : a ≠ z := by
        rintro rfl
        rw [hz, List.nodup_append] at hnodup
        exact hnodup.2.2 a ha a (by simp) rfl
      rw [hn, if_neg hae, if_neg haz]
    · intro b hb
      rw [← hz, List.tail_cons] at hb
      have hbe : b ≠ e := fun heq => he (heq ▸ List.mem_cons_of_mem h hb)
      have hbh : b ≠ h := fun heq => (List.nodup_cons.mp hnodup).1 (heq ▸ hb)
      rw [hp, if_neg hbh, if_neg hbe]
    · rw [hn, if_neg hez, if_pos rfl]
    · rw [hp, if_neg heh, if_pos rfl]
    · rw [hn, if_pos rfl]
    · rw [hp, if_pos rfl]
  · rw [← List.cons_append]
    exact List.nodup_append.mpr ⟨hnodup, List.nodup_singleton e, fun a ha b hb => by
      rw [List.mem_singleton.mp hb]
      exact fun heq => he (heq ▸ ha)⟩

/-- A ring, split at one of its elements. -/
theorem split (hr : LinkedRing next prev h (xs ++ e :: ys)) :
    ∃ zs z w ws, h :: xs = zs ++ [z] ∧ ys ++ [h] = w :: ws ∧
      (zs ++ [z]).IsChain (Adj next prev) ∧ Adj next prev z e ∧ Adj next prev e w ∧
      (w :: ws).IsChain (Adj next prev) := by
  obtain ⟨zs, z, hz⟩ := exists_concat h xs
  obtain ⟨w, ws, hw⟩ := exists_cons ys h
  have hsplit : h :: (xs ++ e :: ys) ++ [h] = zs ++ z :: e :: w :: ws := calc
    _ = (h :: xs) ++ e :: (ys ++ [h]) := by simp
    _ = (zs ++ [z]) ++ e :: w :: ws := by rw [hz, hw]
    _ = zs ++ z :: e :: w :: ws := by simp
  have hc := hr.chain
  rw [hsplit, List.isChain_append_cons_cons, List.isChain_cons_cons] at hc
  exact ⟨zs, z, w, ws, hz, hw, hc⟩

/-- The places before an element, from the head on, and those after it, up to the head. -/
theorem parts (hr : LinkedRing next prev h (xs ++ e :: ys)) :
    (h :: xs).Nodup ∧ (ys ++ [h]).Nodup ∧ (∀ a ∈ h :: xs, a ≠ e ∧ a ∉ ys) ∧
      ∀ a ∈ ys ++ [h], a ≠ e ∧ a ∉ xs := by
  have hnodup := hr.nodup
  rw [← List.cons_append, List.nodup_append] at hnodup
  obtain ⟨hxs, hys, hdisj⟩ := hnodup
  rw [List.nodup_cons] at hys
  have hfront : ∀ a ∈ h :: xs, a ≠ e ∧ a ∉ ys := fun a ha =>
    ⟨hdisj a ha e List.mem_cons_self, fun hmem => hdisj a ha a (List.mem_cons_of_mem e hmem) rfl⟩
  obtain ⟨hhe, hhys⟩ := hfront h List.mem_cons_self
  refine ⟨hxs, ?_, hfront, ?_⟩
  · exact List.nodup_append.mpr ⟨hys.2, List.nodup_singleton h, fun a ha b hb heq =>
      hhys (List.mem_singleton.mp hb ▸ heq ▸ ha)⟩
  · intro a ha
    rcases List.mem_append.mp ha with hmem | hmem
    · exact ⟨fun heq => hys.1 (heq ▸ hmem),
        fun hin => (hfront a (List.mem_cons_of_mem h hin)).2 hmem⟩
    · rw [List.mem_singleton.mp hmem]
      exact ⟨hhe, (List.nodup_cons.mp hxs).1⟩

/-- An element has neighbours in the ring. -/
theorem neighbours (hr : LinkedRing next prev h (xs ++ e :: ys)) :
    ∃ p ∈ h :: (xs ++ e :: ys), ∃ q ∈ h :: (xs ++ e :: ys),
      prev e = some p ∧ next e = some q ∧ p ≠ e := by
  obtain ⟨zs, z, w, ws, hz, hw, -, ⟨-, hze⟩, ⟨hew, -⟩, -⟩ := hr.split
  have hzmem : z ∈ h :: xs := by rw [hz]; simp
  have hwmem : w ∈ ys ++ [h] := by rw [hw]; simp
  refine ⟨z, ?_, w, ?_, hze, hew, (hr.parts.2.2.1 z hzmem).1⟩
  · rw [← List.cons_append]
    exact List.mem_append_left _ hzmem
  · rcases List.mem_append.mp hwmem with hmem | hmem
    · simp [hmem]
    · simp [List.mem_singleton.mp hmem]

/-- Linking the neighbours of an element to each other takes it out. -/
theorem remove [DecidableEq α] (hr : LinkedRing next prev h (xs ++ e :: ys)) {p q : α}
    (hpe : prev e = some p) (hqe : next e = some q)
    (hn : ∀ a, a ≠ e → next' a = if a = p then some q else next a)
    (hp : ∀ a, a ≠ e → prev' a = if a = q then some p else prev a) :
    LinkedRing next' prev' h (xs ++ ys) := by
  obtain ⟨zs, z, w, ws, hz, hw, hfront, ⟨-, hze⟩, ⟨hew, -⟩, hback⟩ := hr.split
  obtain rfl : z = p := Option.some.inj (hze.symm.trans hpe)
  obtain rfl : w = q := Option.some.inj (hew.symm.trans hqe)
  obtain ⟨hxs, hys, hbefore, hafter⟩ := hr.parts
  refine ⟨?_, ?_⟩
  · have hjoin : h :: (xs ++ ys) ++ [h] = zs ++ z :: w :: ws := calc
      _ = (h :: xs) ++ (ys ++ [h]) := by simp
      _ = (zs ++ [z]) ++ w :: ws := by rw [hz, hw]
      _ = zs ++ z :: w :: ws := by simp
    rw [hjoin, List.isChain_append_cons_cons]
    refine ⟨isChain_frame hfront ?_ ?_, ⟨?_, ?_⟩, isChain_frame hback ?_ ?_⟩
    · -- before `z`, which stands last among `h :: xs`
      intro a ha
      rw [List.dropLast_concat] at ha
      rw [hz] at hxs hbefore
      have haz : a ≠ z := fun heq => (List.nodup_append.mp hxs).2.2 a ha z (by simp) heq
      rw [hn a (hbefore a (by simp [ha])).1, if_neg haz]
    · intro b hb
      rw [← hz, List.tail_cons] at hb
      have hbw : b ≠ w := fun heq => (hafter w (by simp [hw])).2 (heq ▸ hb)
      rw [hp b (hbefore b (List.mem_cons_of_mem h hb)).1, if_neg hbw]
    · rw [hn z (hbefore z (by simp [hz])).1, if_pos rfl]
    · rw [hp w (hafter w (by simp [hw])).1, if_pos rfl]
    · intro a ha
      rw [← hw, List.dropLast_concat] at ha
      have haz : a ≠ z := fun heq => (hbefore z (by simp [hz])).2 (heq ▸ ha)
      rw [hn a (hafter a (List.mem_append_left _ ha)).1, if_neg haz]
    · -- after `w`, which stands first among `ys ++ [h]`
      intro b hb
      rw [List.tail_cons] at hb
      rw [hw] at hys hafter
      have hbw : b ≠ w := fun heq => (List.nodup_cons.mp hys).1 (heq ▸ hb)
      rw [hp b (hafter b (List.mem_cons_of_mem w hb)).1, if_neg hbw]
  · rw [← List.cons_append, List.nodup_append]
    refine ⟨hxs, (List.nodup_append.mp hys).1, ?_⟩
    rintro a ha b hb rfl
    exact (hbefore a ha).2 hb

/-! ### Walking around -/

theorem next_prev (hr : LinkedRing next prev h xs) {a : α} (ha : a ∈ h :: xs) :
    ∃ b ∈ h :: xs, next a = some b ∧ prev b = some a := by
  obtain ⟨l₁, l₂, hl⟩ := List.append_of_mem ha
  obtain ⟨b, l₃, hb⟩ := exists_cons l₂ h
  have hc := hr.chain
  rw [hl, List.append_assoc, List.cons_append, hb, List.isChain_append_cons_cons] at hc
  have hmem : b ∈ l₂ ++ [h] := by rw [hb]; simp
  rcases List.mem_append.mp hmem with hmem | hmem
  · exact ⟨b, by rw [hl]; simp [hmem], hc.2.1⟩
  · exact ⟨b, by simp [List.mem_singleton.mp hmem], hc.2.1⟩

theorem prev_next (hr : LinkedRing next prev h xs) {b : α} (hb : b ∈ h :: xs) :
    ∃ a ∈ h :: xs, prev b = some a ∧ next a = some b := by
  have hmem : b ∈ xs ++ [h] := by simpa [or_comm] using hb
  obtain ⟨l₁, l₂, hl⟩ := List.append_of_mem hmem
  obtain ⟨zs, a, ha⟩ := exists_concat h l₁
  have hc := hr.chain
  rw [List.cons_append, hl, ← List.cons_append, ha, List.append_assoc, List.singleton_append,
    List.isChain_append_cons_cons] at hc
  refine ⟨a, ?_, hc.2.1.2, hc.2.1.1⟩
  have hmem : a ∈ h :: l₁ := by rw [ha]; simp
  rcases List.mem_cons.mp hmem with rfl | hmem
  · exact List.mem_cons_self
  · have : a ∈ xs ++ [h] := by rw [hl]; simp [hmem]
    simpa [or_comm] using this

end LinkedRing

/-- The places that are visited from a place on, until there is no next one. `none`: the walk takes
more than `fuel` places. -/
def walk (step : α → Option α) : (fuel : Nat) → Option α → Option (List α)
  | _, none => some []
  | 0, some _ => none
  | fuel + 1, some a => (walk step fuel (step a)).map (a :: ·)

theorem walk_none (step : α → Option α) (fuel : Nat) : walk step fuel none = some [] := by
  cases fuel <;> rfl

/-- A walk along the rest `ys` of a ring, which stops before the head. -/
theorem walk_chain [DecidableEq α] {step : α → Option α} {a : α} {fuel : Nat}
    (hc : (a :: ys ++ [h]).IsChain (Adj next prev)) (hh : h ∉ ys)
    (hs : ∀ b ∈ a :: ys, step b = if next b = some h then none else next b)
    (hfuel : ys.length ≤ fuel) : walk step fuel (step a) = some ys := by
  induction ys generalizing a fuel with
  | nil =>
    rw [List.cons_append, List.nil_append, List.isChain_pair] at hc
    rw [hs a List.mem_cons_self, if_pos hc.1, walk_none]
  | cons y ys ih =>
    rw [List.cons_append, List.cons_append, List.isChain_cons_cons] at hc
    obtain ⟨⟨hay, -⟩, hc⟩ := hc
    rw [List.mem_cons, not_or] at hh
    have hstep : step a = some y := by
      rw [hs a List.mem_cons_self, hay, if_neg (fun heq => hh.1 (Option.some.inj heq).symm)]
    obtain ⟨fuel, rfl⟩ := Nat.exists_eq_add_one_of_ne_zero (by simp at hfuel; omega : fuel ≠ 0)
    rw [hstep, walk, ih hc hh.2 (fun b hb => hs b (List.mem_cons_of_mem a hb))
      (Nat.le_of_succ_le_succ hfuel), Option.map_some]

theorem LinkedRing.walk_eq [DecidableEq α] (hr : LinkedRing next prev h xs) {step : α → Option α}
    (hs : ∀ b ∈ h :: xs, step b = if next b = some h then none else next b) {fuel : Nat}
    (hfuel : xs.length ≤ fuel) : walk step fuel (step h) = some xs :=
  walk_chain hr.chain (List.nodup_cons.mp hr.nodup).1 hs hfuel

end Linked
end Lib
end UGDS
