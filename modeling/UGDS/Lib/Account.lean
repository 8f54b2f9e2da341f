import Mathlib.Data.List.Perm.Basic
import Mathlib.Data.Multiset.AddSub
import Mathlib.Data.Multiset.Count
import UGDS.Lib.Ledger

/-!
# UGDS.Lib.Account

Calls that acquire and release resources while others are held. `account` runs through a sequence of
calls and fails at the first one that releases what is not held, or is made while something it needs
is not held. The resources are released in any order.

* `account_append`, `account_snoc`: sequences one after the other, and one call more.
* `account_frame`: what a sequence does not touch stays held.
* `Leads`: the same with what is held given as a list, whose order does not matter, and rules for
  sequences that only acquire, only release, or release what was acquired last.
* `Call.apply_count`, `Call.apply_acquired_le`: what one call does to what is held.
* `account_count`, `released_perm`: what is acquired is released or still held.
* `released_le`: nothing is released before it has been acquired.
* `not_released_of_needed`: what a call needs has not been released before the call.
-/

namespace UGDS
namespace Lib

/-- What has to be held when the call is made, and what it acquires or releases. -/
structure Call (ρ : Type) where
  needs : List ρ
  op : Option (Op ρ)

section

variable {ρ : Type} {a b : List (Call ρ)} {c : Call ρ}

def Op.resource : Op ρ → ρ
  | .acquire r => r
  | .release r => r

def Op.map {σ : Type} (f : ρ → σ) : Op ρ → Op σ
  | .acquire r => .acquire (f r)
  | .release r => .release (f r)

def Call.acquires (c : Call ρ) : Option ρ :=
  match c.op with
  | some (.acquire r) => some r
  | _ => none

def Call.releases (c : Call ρ) : Option ρ :=
  match c.op with
  | some (.release r) => some r
  | _ => none

def acquired (cs : List (Call ρ)) : List ρ := cs.filterMap Call.acquires

def released (cs : List (Call ρ)) : List ρ := cs.filterMap Call.releases

theorem acquired_append : acquired (a ++ b) = acquired a ++ acquired b := List.filterMap_append

theorem acquired_cons : acquired (c :: a) = c.acquires.toList ++ acquired a := by
  unfold acquired
  cases h : c.acquires with
  | none => rw [List.filterMap_cons_none h]; rfl
  | some r => rw [List.filterMap_cons_some h]; rfl

theorem released_cons : released (c :: a) = c.releases.toList ++ released a := by
  unfold released
  cases h : c.releases with
  | none => rw [List.filterMap_cons_none h]; rfl
  | some r => rw [List.filterMap_cons_some h]; rfl

end

section

variable {ρ : Type} [DecidableEq ρ] {m m' : Multiset ρ} {a b : List (Call ρ)} {c : Call ρ} {r : ρ}

def Op.apply (m : Multiset ρ) : Op ρ → Option (Multiset ρ)
  | .acquire r => some (r ::ₘ m)
  | .release r => if r ∈ m then some (m.erase r) else none

def Call.apply (m : Multiset ρ) (c : Call ρ) : Option (Multiset ρ) :=
  if ∀ r ∈ c.needs, r ∈ m then (c.op.map (Op.apply m)).getD (some m) else none

/-- What is held after a sequence of calls, when `m` was held before. -/
def account (m : Multiset ρ) : List (Call ρ) → Option (Multiset ρ)
  | [] => some m
  | c :: cs => (c.apply m).bind fun m => account m cs

theorem Call.apply_use {needs : List ρ} (h : ∀ r ∈ needs, r ∈ m) :
    Call.apply m ⟨needs, none⟩ = some m := if_pos h

theorem Call.apply_acquire {needs : List ρ} (h : ∀ r ∈ needs, r ∈ m) :
    Call.apply m ⟨needs, some (.acquire r)⟩ = some (r ::ₘ m) := if_pos h

theorem Call.apply_release {needs : List ρ} (h : ∀ x ∈ needs, x ∈ r ::ₘ m) :
    Call.apply (r ::ₘ m) ⟨needs, some (.release r)⟩ = some m := by
  simp only [Call.apply, if_pos h, Option.map_some, Option.getD_some, Op.apply,
    Multiset.mem_cons_self, if_true, Multiset.erase_cons_head]

theorem account_append : account m (a ++ b) = (account m a).bind fun k => account k b := by
  induction a generalizing m with
  | nil => rfl
  | cons c a ih =>
    simp only [List.cons_append, account, Option.bind_assoc]
    exact congrArg _ (funext fun k => ih)

theorem account_snoc (h : account m a = some m') :
    account m (a ++ [c]) = c.apply m' := by
  simp only [account_append, h, Option.bind_some, account]
  exact Option.bind_fun_some _

/-- The calls of a sequence that goes through, one at a time. -/
theorem account_split (h : account m (a ++ c :: b) = some m') :
    ∃ k k', account m a = some k ∧ c.apply k = some k' ∧ account k' b = some m' := by
  rw [account_append] at h
  obtain ⟨k, hk, h⟩ := Option.bind_eq_some_iff.mp h
  obtain ⟨k', hk', h⟩ := Option.bind_eq_some_iff.mp h
  exact ⟨k, k', hk, hk', h⟩

theorem Call.apply_needs (h : c.apply m = some m') : ∀ r ∈ c.needs, r ∈ m := by
  unfold Call.apply at h
  split at h
  · assumption
  · cases h

theorem Call.apply_op (h : c.apply m = some m') :
    (c.op.map (Op.apply m)).getD (some m) = some m' := by
  rwa [Call.apply, if_pos (Call.apply_needs h)] at h

theorem Op.release_apply (h : (Op.release r).apply m = some m') : r ∈ m ∧ m' = m.erase r := by
  simp only [Op.apply] at h
  split at h
  · rename_i hr
    cases h
    exact ⟨hr, rfl⟩
  · cases h

theorem Call.apply_frame (f : Multiset ρ) (h : c.apply m = some m') :
    c.apply (m + f) = some (m' + f) := by
  have hneeds : ∀ r ∈ c.needs, r ∈ m + f := fun r hr =>
    Multiset.mem_add.mpr (.inl (Call.apply_needs h r hr))
  have hop := Call.apply_op h
  unfold Call.apply
  rw [if_pos hneeds]
  rcases hc : c.op with _ | r | r
  · rw [hc] at hop
    cases hop
    rfl
  · rw [hc] at hop
    cases hop
    exact congrArg some (Multiset.cons_add r m f).symm
  · rw [hc] at hop
    obtain ⟨hr, rfl⟩ := Op.release_apply hop
    simp only [Option.map_some, Option.getD_some, Op.apply, if_pos (Multiset.mem_add.mpr (.inl hr)),
      Multiset.erase_add_left_pos f hr]

/-- A sequence that goes through with `m` held goes through with more. -/
theorem account_frame (f : Multiset ρ) (h : account m a = some m') :
    account (m + f) a = some (m' + f) := by
  induction a generalizing m with
  | nil =>
    cases h
    rfl
  | cons c a ih =>
    obtain ⟨k, hk, h⟩ := Option.bind_eq_some_iff.mp h
    rw [account, Call.apply_frame f hk, Option.bind_some]
    exact ih h

/-- One call: what it acquires is added, what it releases was there and is taken away. -/
theorem Call.apply_count (h : c.apply m = some m') (r : ρ) :
    m.count r + c.acquires.toList.count r = c.releases.toList.count r + m'.count r := by
  have hop := Call.apply_op h
  unfold Call.acquires Call.releases
  rcases hc : c.op with _ | x | x
  · rw [hc] at hop
    cases hop
    simp
  · rw [hc] at hop
    cases hop
    simp only [Option.toList, List.count_nil, List.count_singleton, beq_iff_eq, Multiset.count_cons,
      eq_comm (a := x)]
    omega
  · rw [hc] at hop
    obtain ⟨hx, rfl⟩ := Op.release_apply hop
    have hcount := congrArg (Multiset.count r) (Multiset.cons_erase hx)
    rw [Multiset.count_cons] at hcount
    simp only [Option.toList, List.count_nil, List.count_singleton, beq_iff_eq]
    simp only [eq_comm (a := x)]
    omega

theorem Call.apply_le (h : c.apply m = some m') : m' ≤ m + c.acquires.toList := by
  refine Multiset.le_iff_count.mpr fun r => ?_
  have := Call.apply_count h r
  rw [Multiset.count_add, Multiset.coe_count]
  omega

/-- What is held and what will be acquired, together, does not grow. -/
theorem Call.apply_acquired_le (h : c.apply m = some m') :
    m' + (acquired a : Multiset ρ) ≤ m + (acquired (c :: a) : Multiset ρ) := by
  rw [acquired_cons, ← Multiset.coe_add, ← Multiset.add_assoc]
  exact Multiset.add_le_add_right (Call.apply_le h)

theorem account_count (h : account m a = some m') (r : ρ) :
    m.count r + (acquired a).count r = (released a).count r + m'.count r := by
  induction a generalizing m with
  | nil =>
    cases h
    simp [acquired, released]
  | cons c a ih =>
    obtain ⟨k, hk, h⟩ := Option.bind_eq_some_iff.mp h
    have h1 := Call.apply_count hk r
    have h2 := ih h
    rw [acquired_cons, released_cons, List.count_append, List.count_append]
    omega

/-- When nothing is held any more, what was acquired was released, as often. -/
theorem released_perm (h : account 0 a = some 0) : (released a).Perm (acquired a) := by
  refine List.perm_iff_count.mpr fun r => ?_
  have := account_count h r
  simp only [Multiset.count_zero] at this
  omega

theorem released_le (h : account 0 a = some m) {pre : List (Call ρ)} (hp : pre <+: a) (r : ρ) :
    (released pre).count r ≤ (acquired pre).count r := by
  obtain ⟨post, rfl⟩ := hp
  rw [account_append] at h
  obtain ⟨k, hk, -⟩ := Option.bind_eq_some_iff.mp h
  have := account_count hk r
  simp only [Multiset.count_zero] at this
  omega

/-- With each resource acquired once, what a call needs was not released before it. -/
theorem not_released_of_needed (h : account 0 (a ++ c :: b) = some m)
    (hnd : (acquired (a ++ c :: b)).Nodup) (hr : r ∈ c.needs) : r ∉ released a := by
  obtain ⟨k, k', hk, hc, -⟩ := account_split h
  have hcount := account_count hk r
  have hheld := Multiset.count_pos.mpr (Call.apply_needs hc r hr)
  rw [acquired_append] at hnd
  have hone := List.nodup_iff_count_le_one.mp (List.nodup_append.mp hnd).1 r
  rw [Multiset.count_zero] at hcount
  rw [← List.count_pos_iff]
  omega

/-! ## What a sequence leads to -/

/-- The calls go through with `l` held before, and then `l'` is held, in any order. -/
def Leads (l : List ρ) (a : List (Call ρ)) (l' : List ρ) : Prop :=
  account (l : Multiset ρ) a = some (l' : Multiset ρ)

namespace Leads

variable {l l₁ l' : List ρ} {needs : ρ → List ρ}

theorem nil : Leads l [] l := rfl

theorem append (ha : Leads l a l₁) (hb : Leads l₁ b l') : Leads l (a ++ b) l' := by
  unfold Leads at ha hb ⊢
  rw [account_append, ha, Option.bind_some, hb]

theorem perm (h : Leads l a l₁) (hp : l₁.Perm l') : Leads l a l' :=
  h.trans (congrArg some (Multiset.coe_eq_coe.mpr hp))

/-- The calls touch only a part of what is held. -/
theorem within {x y f : List ρ} (h : Leads x a y) (hl : l.Perm (x ++ f)) (hl' : l'.Perm (y ++ f)) :
    Leads l a l' := by
  unfold Leads at h ⊢
  rw [Multiset.coe_eq_coe.mpr hl, Multiset.coe_eq_coe.mpr hl', ← Multiset.coe_add,
    ← Multiset.coe_add]
  exact account_frame _ h

theorem use {rs : List ρ} (hn : ∀ x ∈ rs, x ∈ l) : Leads l [⟨rs, none⟩] l := by
  unfold Leads
  rw [account, Call.apply_use fun x hx => Multiset.mem_coe.mpr (hn x hx)]
  rfl

theorem acquire (hn : ∀ x ∈ needs r, x ∈ l) (h : Leads (r :: l) a l') :
    Leads l (⟨needs r, some (.acquire r)⟩ :: a) l' := by
  unfold Leads at h ⊢
  rw [account, Call.apply_acquire fun x hx => Multiset.mem_coe.mpr (hn x hx)]
  exact h

theorem release (hn : ∀ x ∈ needs r, x ∈ l) (hr : r ∈ l) (h : Leads (l.erase r) a l') :
    Leads l (⟨needs r, some (.release r)⟩ :: a) l' := by
  have hl : (l : Multiset ρ) = r ::ₘ (l.erase r : List ρ) :=
    Multiset.coe_eq_coe.mpr (List.perm_cons_erase hr)
  have hn' : ∀ x ∈ needs r, x ∈ r ::ₘ ((l.erase r : List ρ) : Multiset ρ) := by
    rw [← hl]
    exact fun x hx => Multiset.mem_coe.mpr (hn x hx)
  unfold Leads at h ⊢
  rw [account, hl, Call.apply_release hn']
  exact h

theorem acquires {rs : List ρ} (hn : ∀ r ∈ rs, ∀ x ∈ needs r, x ∈ l) :
    Leads l (rs.map fun r => ⟨needs r, some (.acquire r)⟩) (rs ++ l) := by
  induction rs generalizing l with
  | nil => exact nil
  | cons r rs ih =>
    obtain ⟨hr, hrs⟩ := List.forall_mem_cons.mp hn
    have hrest := ih fun y hy x hx => List.mem_cons_of_mem r (hrs y hy x hx)
    exact acquire hr (hrest.perm List.perm_middle)

theorem releases {rs : List ρ} (hn : ∀ r ∈ rs, ∀ x ∈ needs r, x ∈ l) :
    Leads (rs ++ l) (rs.map fun r => ⟨needs r, some (.release r)⟩) l := by
  induction rs with
  | nil => exact nil
  | cons r rs ih =>
    obtain ⟨hr, hrs⟩ := List.forall_mem_cons.mp hn
    refine release (fun x hx => List.mem_append_right _ (hr x hx)) List.mem_cons_self ?_
    rw [List.cons_append, List.erase_cons_head]
    exact ih hrs

/-- What is released last first is released while held, with what the calls need held throughout. The
resources are given as the `f x`. -/
theorem of_stack {σ : Type} [DecidableEq σ] (f : σ → ρ) {s s' : List σ} {ops : List (Op σ)}
    (hn : ∀ o ∈ ops, ∀ x ∈ needs (f o.resource), x ∈ l) (h : stack s ops = some s') :
    Leads (s.map f ++ l) (ops.map fun o => ⟨needs (f o.resource), some (o.map f)⟩)
      (s'.map f ++ l) := by
  induction ops generalizing s with
  | nil =>
    cases h
    exact nil
  | cons op ops ih =>
    obtain ⟨hop, hops⟩ := List.forall_mem_cons.mp hn
    cases op with
    | acquire r => exact acquire (fun x hx => List.mem_append_right _ (hop x hx)) (ih hops h)
    | release r =>
      cases s with
      | nil => cases h
      | cons x s =>
        simp only [stack] at h
        split at h
        · rename_i hx
          subst hx
          refine release (r := f x) (fun y hy => List.mem_append_right _ (hop y hy))
            List.mem_cons_self ?_
          rw [List.map_cons, List.cons_append, List.erase_cons_head]
          exact ih hops h
        · cases h

end Leads

end

end Lib
end UGDS
