import Mathlib.Algebra.Group.Nat.Defs
import UGDS.Lib.Keys

/-!
# UGDS.Lib.RefTable

Reference-counted objects. A table holds the objects that exist, each with its counter of `width`
bits; `get` counts up, `put` counts down and frees the object at 0. Both wrap around, and neither
knows who holds references: that the counters are right is a relation between the table and the
list of references that exist (`Tracks`).

* `Tracks.alloc`, `Tracks.get`, `Tracks.put`, `Tracks.drop`: what each operation does to a table
  that tracks its references.
-/

namespace UGDS
namespace Lib

structure Counted (α : Type) where
  id : Nat
  count : Nat
  val : α

namespace RefTable

variable {α : Type}

/-- Set the counter of object `id`. -/
def setCount (t : List (Counted α)) (id n : Nat) : List (Counted α) :=
  t.map fun e => if e.id = id then { e with count := n } else e

/-- Free object `id`. -/
def drop (t : List (Counted α)) (id : Nat) : List (Counted α) := t.filter fun e => e.id ≠ id

/-- Take a reference to object `id`; `none` when there is no such object. -/
def get (width : Nat) (t : List (Counted α)) (id : Nat) : Option (List (Counted α)) :=
  match t.find? fun e => e.id = id with
  | none => none
  | some e => some (setCount t id ((e.count + 1) % 2 ^ width))

/-- Give a reference back. The object is freed, and its value returned, when the counter gets to
0. -/
def put (width : Nat) (t : List (Counted α)) (id : Nat) : Option (List (Counted α) × Option α) :=
  match t.find? fun e => e.id = id with
  | none => none
  | some e =>
    let n := (e.count + (2 ^ width - 1)) % 2 ^ width
    if n = 0 then some (drop t id, some e.val) else some (setCount t id n, none)

/-- The counters say how many references exist, an object exists while it has references, and no
counter has wrapped around. -/
structure Tracks (width : Nat) (t : List (Counted α)) (refs : List Nat) : Prop where
  ids : (t.map Counted.id).Nodup
  count : ∀ e ∈ t, e.count = refs.count e.id
  held : ∀ e ∈ t, e.id ∈ refs
  live : ∀ r ∈ refs, r ∈ t.map Counted.id
  bound : ∀ r, refs.count r < 2 ^ width

/-- Everything about the objects but their counters. -/
def shape (t : List (Counted α)) : List (Nat × α) := t.map fun e => (e.id, e.val)

section

variable {width : Nat} {t t' : List (Counted α)} {refs refs' : List Nat} {id : Nat}

@[simp] theorem shape_setCount (t : List (Counted α)) (id n : Nat) :
    shape (setCount t id n) = shape t := by
  simp only [shape, setCount, List.map_map]
  congr 1
  funext e
  simp only [Function.comp_apply]
  split <;> rfl

theorem ids_of_shape (h : shape t' = shape t) : t'.map Counted.id = t.map Counted.id := by
  have := congrArg (List.map Prod.fst) h
  simpa [shape, Function.comp_def] using this

theorem mem_setCount {n : Nat} {e : Counted α} (h : e ∈ setCount t id n) :
    (e.id = id ∧ e.count = n) ∨ (e.id ≠ id ∧ e ∈ t) := by
  obtain ⟨x, hx, rfl⟩ := List.mem_map.mp h
  split
  · rename_i hid
    exact .inl ⟨hid, rfl⟩
  · rename_i hid
    exact .inr ⟨hid, hx⟩

theorem Tracks.perm (h : Tracks width t refs) (hp : refs.Perm refs') : Tracks width t refs' :=
  ⟨h.ids, fun e he => by rw [h.count e he, hp.count_eq], fun e he => hp.mem_iff.mp (h.held e he),
    fun r hr => h.live r (hp.mem_iff.mpr hr), fun r => by rw [← hp.count_eq]; exact h.bound r⟩

/-- A referenced object is found. -/
theorem Tracks.find (h : Tracks width t refs) (hid : id ∈ refs) :
    ∃ e ∈ t, t.find? (fun e => e.id = id) = some e ∧ e.id = id ∧ e.count = refs.count id := by
  obtain ⟨e, he, hk, hf⟩ := find_key (h.live id hid)
  exact ⟨e, he, hf, hk, by rw [h.count e he, hk]⟩

/-- A new object with its first reference. -/
theorem Tracks.alloc (h : Tracks width t refs) (hw : 0 < width) (hid : id ∉ t.map Counted.id)
    (val : α) : Tracks width (t ++ [⟨id, 1, val⟩]) (id :: refs) := by
  have hnot : id ∉ refs := fun hr => hid (h.live id hr)
  have hone : 1 < 2 ^ width := Nat.one_lt_two_pow (Nat.ne_of_gt hw)
  refine ⟨?_, fun e he => ?_, fun e he => ?_, fun r hr => ?_, fun r => ?_⟩
  · rw [List.map_append]
    exact nodup_snoc h.ids hid
  · rcases List.mem_append.mp he with he | he
    · have hne : e.id ≠ id := fun heq => hid (heq ▸ List.mem_map_of_mem he)
      rw [h.count e he, List.count_cons_of_ne hne.symm]
    · rw [List.mem_singleton.mp he, List.count_cons_self, List.count_eq_zero_of_not_mem hnot]
  · rcases List.mem_append.mp he with he | he
    · exact List.mem_cons_of_mem _ (h.held e he)
    · rw [List.mem_singleton.mp he]
      exact List.mem_cons_self
  · rw [List.map_append]
    rcases List.mem_cons.mp hr with rfl | hr
    · exact List.mem_append_right _ (List.mem_singleton_self _)
    · exact List.mem_append_left _ (h.live r hr)
  · by_cases hr : id = r
    · rw [← hr, List.count_cons_self, List.count_eq_zero_of_not_mem hnot]
      exact hone
    · rw [List.count_cons_of_ne hr]
      exact h.bound r

/-- Changing the counter of an object to the new number of its references. -/
theorem Tracks.setCount (h : Tracks width t refs) (hlive : id ∈ t.map Counted.id)
    (hother : ∀ r, r ≠ id → refs'.count r = refs.count r)
    (hpos : 0 < refs'.count id) (hlt : refs'.count id < 2 ^ width) :
    Tracks width (setCount t id (refs'.count id)) refs' := by
  have hmem (r : Nat) (hr : r ≠ id) : r ∈ refs' ↔ r ∈ refs := by
    rw [← List.count_pos_iff, hother r hr, List.count_pos_iff]
  have hids := ids_of_shape (shape_setCount t id (refs'.count id))
  refine ⟨by rw [hids]; exact h.ids, fun e he => ?_, fun e he => ?_, fun r hr => ?_, fun r => ?_⟩
  · rcases mem_setCount he with ⟨h1, h2⟩ | ⟨h1, h2⟩
    · rw [h2, h1]
    · rw [h.count e h2, hother e.id h1]
  · rcases mem_setCount he with ⟨h1, -⟩ | ⟨h1, h2⟩
    · rw [h1]
      exact List.count_pos_iff.mp hpos
    · exact (hmem e.id h1).mpr (h.held e h2)
  · rw [hids]
    by_cases hne : r = id
    · rw [hne]
      exact hlive
    · exact h.live r ((hmem r hne).mp hr)
  · by_cases hne : r = id
    · rw [hne]
      exact hlt
    · rw [hother r hne]
      exact h.bound r

theorem Tracks.get (h : Tracks width t refs) (hid : id ∈ refs)
    (hroom : refs.count id + 1 < 2 ^ width) :
    ∃ t', RefTable.get width t id = some t' ∧ shape t' = shape t ∧ Tracks width t' (id :: refs) := by
  obtain ⟨e, -, hf, -, hc⟩ := h.find hid
  refine ⟨RefTable.setCount t id (refs.count id + 1), ?_, shape_setCount _ _ _, ?_⟩
  · simp only [RefTable.get, hf, hc, Nat.mod_eq_of_lt hroom]
  · have hc' : (id :: refs).count id = refs.count id + 1 := List.count_cons_self
    rw [← hc']
    exact h.setCount (h.live id hid) (fun r hr => List.count_cons_of_ne hr.symm) (by omega)
      (by omega)

/-- Freeing an object whose only reference is given back. -/
theorem Tracks.drop (h : Tracks width t (id :: refs)) (hid : id ∉ refs) :
    Tracks width (drop t id) refs := by
  have hsub : ∀ e ∈ RefTable.drop t id, e ∈ t ∧ e.id ≠ id := fun e he => by
    simpa [RefTable.drop] using he
  refine ⟨h.ids.sublist (List.filter_sublist.map _), fun e he => ?_, fun e he => ?_, fun r hr => ?_,
    fun r => Nat.lt_of_le_of_lt (List.count_le_count_cons ..) (h.bound r)⟩
  · obtain ⟨hm, hne⟩ := hsub e he
    rw [h.count e hm, List.count_cons_of_ne hne.symm]
  · obtain ⟨hm, hne⟩ := hsub e he
    exact (List.mem_cons.mp (h.held e hm)).resolve_left hne
  · obtain ⟨e, he, rfl⟩ := List.mem_map.mp (h.live r (List.mem_cons_of_mem _ hr))
    refine List.mem_map_of_mem (List.mem_filter.mpr ⟨he, ?_⟩)
    have : e.id ≠ id := fun heq => hid (heq ▸ hr)
    simpa using this

/-- Giving a reference back frees the object exactly if it was the last one. -/
theorem Tracks.put (h : Tracks width t (id :: refs)) :
    (id ∈ refs ∧ ∃ t', RefTable.put width t id = some (t', none) ∧ shape t' = shape t ∧
        Tracks width t' refs) ∨
      (id ∉ refs ∧ ∃ e ∈ t, e.id = id ∧ RefTable.put width t id = some (RefTable.drop t id, some e.val) ∧
        Tracks width (RefTable.drop t id) refs) := by
  obtain ⟨e, hmem, hf, he, hc⟩ := h.find List.mem_cons_self
  have hb := h.bound id
  rw [List.count_cons_self] at hc hb
  -- the counter as the source computes it, modulo the width
  have hn : (e.count + (2 ^ width - 1)) % 2 ^ width = refs.count id := by
    have h1 : e.count + (2 ^ width - 1) = refs.count id + 2 ^ width := by omega
    rw [h1, Nat.add_mod_right, Nat.mod_eq_of_lt (by omega)]
  by_cases hid : id ∈ refs
  · have hpos := List.count_pos_iff.mpr hid
    refine .inl ⟨hid, RefTable.setCount t id (refs.count id), ?_, shape_setCount _ _ _, ?_⟩
    · simp only [RefTable.put, hf, hn, if_neg (Nat.ne_of_gt hpos)]
    · exact h.setCount (h.live id List.mem_cons_self)
        (fun r hr => (List.count_cons_of_ne hr.symm).symm) hpos (by omega)
  · have hz := List.count_eq_zero_of_not_mem hid
    refine .inr ⟨hid, e, hmem, he, ?_, h.drop hid⟩
    simp only [RefTable.put, hf, hn, hz, if_true]

end

end RefTable

end Lib
end UGDS
