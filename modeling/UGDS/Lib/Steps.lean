import Mathlib.Data.List.Basic

/-!
# UGDS.Lib.Steps

Runs of a labelled step function `step : σ → ℓ → Option σ` (`none`: the label is not enabled). A
run keeps its trace, the list of the states and labels it went through, so that a property of
every step of a run and a condition on every step can both be stated.

* `Run.inv`: an invariant kept by every step that meets a condition holds at every state of every
  run all of whose steps meet it.
* `Run.forall_iff`: the same with an equivalence.
* `Run.upto`, `Run.onward`, `Run.mem_of_labels`: a run up to one of its steps and from it on, and
  runs with the same labels.
* `Run.along`: runs through a given sequence of calls.
* `follow`: a run computed from its labels.
* `forall_snoc`: what is said of every entry of a history, when one is added.
-/

namespace UGDS
namespace Lib

section Run

variable {σ ℓ : Type} (step : σ → ℓ → Option σ)

/-- `Run step s tr s'`: the labels of `tr` lead from `s` to `s'`; each entry of `tr` is the state
before a step together with the step's label. -/
inductive Run : σ → List (σ × ℓ) → σ → Prop where
  | refl {s : σ} : Run s [] s
  | cons {s s₁ s₂ : σ} {l : ℓ} {tr : List (σ × ℓ)} :
      step s l = some s₁ → Run s₁ tr s₂ → Run s ((s, l) :: tr) s₂

variable {step}

theorem Run.single {s s' : σ} {l : ℓ} (h : step s l = some s') : Run step s [(s, l)] s' :=
  .cons h .refl

theorem Run.trans {s s₁ s₂ : σ} {tr₁ tr₂ : List (σ × ℓ)} (h₁ : Run step s tr₁ s₁)
    (h₂ : Run step s₁ tr₂ s₂) : Run step s (tr₁ ++ tr₂) s₂ := by
  induction h₁ with
  | refl => exact h₂
  | cons hs _ ih => exact .cons hs (ih h₂)

/-- The invariant rule. `good` is the condition on a step (`fun _ _ => True` when there is
none). The invariant holds at the end and before every step of the run. -/
theorem Run.inv (inv : σ → Prop) (good : σ → ℓ → Prop)
    (hstep : ∀ s l s', inv s → good s l → step s l = some s' → inv s')
    {s s' : σ} {tr : List (σ × ℓ)} (hr : Run step s tr s') (hs : inv s)
    (hg : ∀ x ∈ tr, good x.1 x.2) : inv s' ∧ ∀ x ∈ tr, inv x.1 := by
  induction hr with
  | refl => exact ⟨hs, fun x hx => absurd hx (by simp)⟩
  | @cons s s₁ s₂ l tr h _ ih =>
    have h1 : inv s₁ := hstep s l s₁ hs (hg (s, l) (by simp)) h
    obtain ⟨h2, h3⟩ := ih h1 (fun x hx => hg x (by simp [hx]))
    refine ⟨h2, ?_⟩
    intro x hx
    rcases List.mem_cons.mp hx with rfl | hx
    · exact hs
    · exact h3 x hx

/-- The invariant rule for an invariant that every step keeps. -/
theorem Run.inv_all (inv : σ → Prop) (hstep : ∀ s l s', inv s → step s l = some s' → inv s')
    {s s' : σ} {tr : List (σ × ℓ)} (hr : Run step s tr s') (hs : inv s) : inv s' :=
  (Run.inv inv (fun _ _ => True) (fun s l s' hi _ h => hstep s l s' hi h) hr hs
    (fun _ _ => trivial)).1

/-- The rule for an invariant that speaks about the steps taken so far. -/
theorem Run.inv_trace (inv : List (σ × ℓ) → σ → Prop)
    (hstep : ∀ tr s l s', inv tr s → step s l = some s' → inv (tr ++ [(s, l)]) s')
    {s s' : σ} {tr₀ tr : List (σ × ℓ)} (hr : Run step s tr s') (hs : inv tr₀ s) :
    inv (tr₀ ++ tr) s' := by
  induction hr generalizing tr₀ with
  | refl => rwa [List.append_nil]
  | @cons s s₁ s₂ l tr h _ ih =>
    have := ih (hstep _ _ _ _ hs h)
    rwa [List.append_assoc] at this

/-- When a step from a state with the property leads to a state with the property exactly if the
step meets the condition, the property holds along a run exactly if all its steps meet it. -/
theorem Run.forall_iff (inv prop : σ → Prop) (good : σ → ℓ → Prop)
    (hstep : ∀ s l s', inv s → step s l = some s' → inv s')
    (hiff : ∀ s l s', inv s → prop s → step s l = some s' → (prop s' ↔ good s l))
    {s s' : σ} {tr : List (σ × ℓ)} (hr : Run step s tr s') (hi : inv s) (hp : prop s) :
    ((∀ x ∈ tr, prop x.1) ∧ prop s') ↔ ∀ x ∈ tr, good x.1 x.2 := by
  induction hr with
  | refl => simp [hp]
  | @cons s s₁ s₂ l tr h _ ih =>
    have h1 := hiff s l s₁ hi hp h
    have h2 := ih (hstep s l s₁ hi h)
    constructor
    · rintro ⟨hall, hend⟩
      have hp₁ : prop s₁ := by
        cases tr with
        | nil =>
          rename_i hrun
          cases hrun
          exact hend
        | cons y tr =>
          rename_i hrun
          cases hrun
          exact hall _ (List.mem_cons_of_mem _ (List.mem_cons_self ..))
      refine List.forall_mem_cons.mpr ⟨h1.mp hp₁, ?_⟩
      exact (h2 hp₁).mp ⟨fun x hx => hall x (List.mem_cons_of_mem _ hx), hend⟩
    · intro hall
      obtain ⟨hl, hrest⟩ := List.forall_mem_cons.mp hall
      obtain ⟨h3, h4⟩ := (h2 (h1.mpr hl)).mpr hrest
      exact ⟨List.forall_mem_cons.mpr ⟨hp, h3⟩, h4⟩

/-- A run up to one of its steps. -/
theorem Run.upto {s s' : σ} {tr : List (σ × ℓ)} (hr : Run step s tr s') {x : σ × ℓ} (hx : x ∈ tr) :
    ∃ tr₁ tr₂, tr = tr₁ ++ x :: tr₂ ∧ Run step s tr₁ x.1 := by
  induction hr with
  | refl => cases hx
  | @cons s s₁ s₂ l tr h hr ih =>
    rcases List.mem_cons.mp hx with rfl | hx
    · exact ⟨[], tr, rfl, .refl⟩
    · obtain ⟨tr₁, tr₂, rfl, hr₁⟩ := ih hx
      exact ⟨(s, l) :: tr₁, tr₂, rfl, .cons h hr₁⟩

/-- A run from one of its steps on. -/
theorem Run.onward {s s' : σ} {tr : List (σ × ℓ)} (hr : Run step s tr s') {x : σ × ℓ}
    (hx : x ∈ tr) : ∃ tr₂, Run step x.1 (x :: tr₂) s' := by
  induction hr with
  | refl => cases hx
  | @cons s s₁ s₂ l tr h hr ih =>
    rcases List.mem_cons.mp hx with rfl | hx
    · exact ⟨tr, .cons h hr⟩
    · exact ih hx

/-- Runs with the same labels go through the same states. -/
theorem Run.mem_of_labels {s s₁ s₂ : σ} {tr₁ tr₂ : List (σ × ℓ)} (h₁ : Run step s tr₁ s₁)
    (h₂ : Run step s tr₂ s₂) {l : ℓ} {ls : List ℓ}
    (hl : tr₂.map Prod.snd = tr₁.map Prod.snd ++ l :: ls) : (s₁, l) ∈ tr₂ := by
  induction h₁ generalizing tr₂ with
  | refl =>
    cases h₂ with
    | refl => cases hl
    | cons _ _ =>
      cases hl
      exact List.mem_cons_self
  | cons h _ ih =>
    cases h₂ with
    | refl => cases hl
    | cons h' hr =>
      obtain ⟨rfl, htail⟩ := List.cons.inj hl
      obtain rfl := Option.some.inj (h.symm.trans h')
      exact List.mem_cons_of_mem _ (ih hr htail)

/-- Every step of a run is enabled where it is taken. -/
theorem Run.enabled {s s' : σ} {tr : List (σ × ℓ)} (hr : Run step s tr s') :
    ∀ x ∈ tr, ∃ s₁, step x.1 x.2 = some s₁ := by
  induction hr with
  | refl => intro x hx; simp at hx
  | @cons s s₁ s₂ l tr h _ ih =>
    intro x hx
    rcases List.mem_cons.mp hx with rfl | hx
    · exact ⟨s₁, h⟩
    · exact ih x hx

/-- Runs through given calls, when a label says more than the call. If each call can be made and keeps
what is said about the calls that are left, then all can be made, and however they are made, it is
said of the end. -/
theorem Run.along {α : Type} (call : ℓ → α) (inv : List α → σ → Prop)
    (hstep : ∀ a as s, inv (a :: as) s → (∃ l s', call l = a ∧ step s l = some s') ∧
      ∀ l s', call l = a → step s l = some s' → inv as s')
    {as : List α} {s : σ} (h : inv as s) :
    (∃ tr s', Run step s tr s' ∧ tr.map (fun x => call x.2) = as) ∧
      ∀ tr s', Run step s tr s' → tr.map (fun x => call x.2) = as → inv [] s' := by
  induction as generalizing s with
  | nil =>
    refine ⟨⟨[], s, .refl, rfl⟩, fun tr s' hr htr => ?_⟩
    obtain rfl := List.map_eq_nil_iff.mp htr
    cases hr
    exact h
  | cons a as ih =>
    obtain ⟨⟨l, s₁, rfl, hl⟩, hall⟩ := hstep a as s h
    constructor
    · obtain ⟨tr, s', hr, htr⟩ := (ih (hall l s₁ rfl hl)).1
      exact ⟨(s, l) :: tr, s', .cons hl hr, by rw [List.map_cons, htr]⟩
    · intro tr s' hr htr
      cases hr with
      | refl => cases htr
      | cons hs hr =>
        obtain ⟨ha, htail⟩ := List.cons.inj htr
        exact (ih (hall _ _ ha hs)).2 _ _ hr htail

variable (step)

/-- The state that a list of labels leads to, if all the steps meet the condition. -/
def follow (good : σ → ℓ → Bool) (s : σ) : List ℓ → Option σ
  | [] => some s
  | l :: ls => if good s l then (step s l).bind fun s' => follow good s' ls else none

/-- What is observed of the state at the end of a list of labels is observed at the end of a run
through these labels. -/
theorem follow_trace (good : σ → ℓ → Bool) (s : σ) (ls : List ℓ) (p : σ → Bool)
    (h : (follow step good s ls).any p = true) :
    ∃ tr s', Run step s tr s' ∧ tr.map Prod.snd = ls ∧ (∀ x ∈ tr, good x.1 x.2 = true) ∧
      p s' = true := by
  induction ls generalizing s with
  | nil => exact ⟨[], s, .refl, rfl, by simp, h⟩
  | cons l ls ih =>
    simp only [follow] at h
    split at h
    · rename_i hg
      cases hs : step s l with
      | none =>
        rw [hs] at h
        cases h
      | some s₁ =>
        rw [hs] at h
        obtain ⟨tr, s', hr, htr, hl, hp⟩ := ih s₁ h
        exact ⟨(s, l) :: tr, s', .cons hs hr, by rw [List.map_cons, htr],
          List.forall_mem_cons.mpr ⟨hg, hl⟩, hp⟩
    · cases h

theorem follow_run (good : σ → ℓ → Bool) (s : σ) (ls : List ℓ) (p : σ → Bool)
    (h : (follow step good s ls).any p = true) :
    ∃ tr s', Run step s tr s' ∧ (∀ x ∈ tr, good x.1 x.2 = true) ∧ p s' = true := by
  obtain ⟨tr, s', hr, -, hg, hp⟩ := follow_trace step good s ls p h
  exact ⟨tr, s', hr, hg, hp⟩

end Run

theorem forall_snoc {α : Type} {P : Nat → α → Prop} {l : List α} {a : α}
    (h : ∀ k x, l[k]? = some x → P k x) (ha : P l.length a) :
    ∀ k x, (l ++ [a])[k]? = some x → P k x := by
  intro k x hk
  rcases Nat.lt_trichotomy k l.length with hlt | rfl | hgt
  · rw [List.getElem?_append_left hlt] at hk
    exact h k x hk
  · rw [List.getElem?_concat_length] at hk
    cases hk
    exact ha
  · rw [List.getElem?_eq_none (by simp; omega)] at hk
    cases hk

end Lib
end UGDS
