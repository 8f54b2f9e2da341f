import Mathlib.Data.List.Perm.Basic
import UGDS.Lib.Steps

/-!
# UGDS.Lib.Monitor

Threads that share a state `σ` with one lock. A thread is at a program point `π`; from each point it
takes one step, which may depend on what its environment answers (`ε`), and each call `κ` starts a new
thread. Which points hold the lock is part of the program: a step from a point without the lock to one
with it waits until the lock is free, and one in the other direction gives it back. Steps of
different threads interleave in any order.

* `Monitor.step_call`, `Monitor.step_next`: what a step does.
* `Monitor.Exclusive`: at most one thread is at a point with the lock, the one that `lock` names.
* `Guarded`: an invariant `inv` of the shared state for when the lock is free, and an assertion for
  each point that holds it. The threads without the lock keep them.
* `Guarded.run`: then they hold in every run.
* `Alone.run`: a call can be made while all others rest; `serial` are the moves of calls that are made
  one after another like this.
-/

namespace UGDS
namespace Lib

structure Program (σ π ε κ : Type) where
  start : σ → κ → Option (σ × π)
  next : σ → π → ε → Option (σ × π)
  locked : π → Bool

structure Monitor (σ π : Type) where
  shared : σ
  lock : Option Nat
  threads : List π

namespace Monitor

inductive Move (ε κ : Type) where
  | call (k : κ)
  | step (j : Nat) (e : ε)

def init {σ π : Type} (s : σ) : Monitor σ π := ⟨s, none, []⟩

section Step

variable {σ π ε κ : Type} (P : Program σ π ε κ)

/-- The lock after thread `j` has gone from `p` to `q`. -/
def relock (lock : Option Nat) (j : Nat) (p q : π) : Option (Option Nat) :=
  match P.locked p, P.locked q with
  | false, true => if lock.isNone then some (some j) else none
  | true, false => some none
  | _, _ => some lock

def step (m : Monitor σ π) : Move ε κ → Option (Monitor σ π)
  | .call k =>
    match P.start m.shared k with
    | none => none
    | some (s, p) => some ⟨s, m.lock, m.threads ++ [p]⟩
  | .step j e =>
    match m.threads[j]? with
    | none => none
    | some p =>
      match P.next m.shared p e with
      | none => none
      | some (s, q) => (relock P m.lock j p q).map fun lock => ⟨s, lock, m.threads.set j q⟩

variable {P} {m m' : Monitor σ π}

theorem step_call {k : κ} (h : m.step P (.call k) = some m') :
    ∃ s p, P.start m.shared k = some (s, p) ∧ m' = ⟨s, m.lock, m.threads ++ [p]⟩ := by
  simp only [step] at h
  split at h
  · cases h
  · rename_i s p hs
    cases h
    exact ⟨s, p, hs, rfl⟩

theorem step_next {j : Nat} {e : ε} (h : m.step P (.step j e) = some m') :
    ∃ p s q lock, m.threads[j]? = some p ∧ P.next m.shared p e = some (s, q) ∧
      relock P m.lock j p q = some lock ∧ m' = ⟨s, lock, m.threads.set j q⟩ := by
  simp only [step] at h
  split at h
  · cases h
  rename_i p hp
  split at h
  · cases h
  rename_i s q hn
  obtain ⟨lock, hl, he⟩ := Option.map_eq_some_iff.mp h
  exact ⟨p, s, q, lock, hp, hn, hl, he.symm⟩

/-- Taking the lock, giving it back, and a step that does neither. -/
theorem relock_cases {lock lock' : Option Nat} {j : Nat} {p q : π}
    (h : relock P lock j p q = some lock') :
    (P.locked p = false ∧ P.locked q = true ∧ lock = none ∧ lock' = some j) ∨
      (P.locked p = true ∧ P.locked q = false ∧ lock' = none) ∨
      (P.locked p = P.locked q ∧ lock' = lock) := by
  unfold relock at h
  cases hp : P.locked p <;> cases hq : P.locked q <;> simp only [hp, hq] at h
  · cases h
    exact .inr (.inr ⟨rfl, rfl⟩)
  · split at h
    · rename_i hfree
      cases h
      exact .inl ⟨rfl, rfl, Option.isNone_iff_eq_none.mp hfree, rfl⟩
    · cases h
  · cases h
    exact .inr (.inl ⟨rfl, rfl, rfl⟩)
  · cases h
    exact .inr (.inr ⟨rfl, rfl⟩)

/-- The point of thread `k` after thread `j` has gone to `q`. -/
theorem threads_set {j k : Nat} {q r : π}
    (h : (m.threads.set j q)[k]? = some r) :
    (k = j ∧ r = q) ∨ k ≠ j ∧ m.threads[k]? = some r := by
  rw [List.getElem?_set] at h
  split at h
  · rename_i hjk
    split at h
    · cases h
      exact .inl ⟨hjk.symm, rfl⟩
    · cases h
  · rename_i hjk
    exact .inr ⟨fun he => hjk he.symm, h⟩

theorem threads_append {k : Nat} {p r : π} (h : (m.threads ++ [p])[k]? = some r) :
    m.threads[k]? = some r ∨ k = m.threads.length ∧ r = p := by
  rcases Nat.lt_or_ge k m.threads.length with hk | hk
  · rw [List.getElem?_append_left hk] at h
    exact .inl h
  · rw [List.getElem?_append_right hk, List.getElem?_singleton] at h
    split at h
    · cases h
      exact .inr ⟨by omega, rfl⟩
    · cases h

/-- Thread `j` and the others. -/
theorem threads_eraseIdx {j : Nat} {p : π} (h : m.threads[j]? = some p) (q : π) :
    m.threads.Perm (p :: m.threads.eraseIdx j) ∧
      (m.threads.set j q).Perm (q :: m.threads.eraseIdx j) := by
  obtain ⟨hlt, rfl⟩ := List.getElem?_eq_some_iff.mp h
  have hset := List.getElem_cons_eraseIdx_perm (l := m.threads.set j q) (n := j) (by simpa using hlt)
  rw [List.getElem_set_self, List.eraseIdx_set_eq] at hset
  exact ⟨(List.getElem_cons_eraseIdx_perm hlt).symm, hset.symm⟩

theorem threads_perm {j : Nat} {p : π} (h : m.threads[j]? = some p) (q : π) :
    ∃ rest, m.threads.Perm (p :: rest) ∧ (m.threads.set j q).Perm (q :: rest) :=
  ⟨_, threads_eraseIdx h q⟩

/-- The number of threads at a point after thread `j` has gone to `q`. -/
theorem count_set [DecidableEq π] {j : Nat} {p : π} (h : m.threads[j]? = some p) (q x : π) :
    (m.threads.set j q).count x + (if p = x then 1 else 0) =
      m.threads.count x + (if q = x then 1 else 0) := by
  obtain ⟨hold, hnew⟩ := threads_eraseIdx h q
  rw [hold.count_eq, hnew.count_eq, List.count_cons, List.count_cons]
  simp only [beq_iff_eq]
  omega

end Step

/-! ## Mutual exclusion and the guarded state -/

variable {σ π ε κ : Type}

structure Exclusive (P : Program σ π ε κ) (m : Monitor σ π) : Prop where
  holds : ∀ (j : Nat) p, m.threads[j]? = some p → (P.locked p = true ↔ m.lock = some j)
  held : ∀ j, m.lock = some j → j < m.threads.length

theorem Exclusive.unique {P : Program σ π ε κ} {m : Monitor σ π} (h : Exclusive P m) {j k : Nat}
    {p q : π} (hp : m.threads[j]? = some p) (hq : m.threads[k]? = some q) (hlp : P.locked p = true)
    (hlq : P.locked q = true) : j = k :=
  Option.some.inj (((h.holds j p hp).mp hlp).symm.trans ((h.holds k q hq).mp hlq))

/-- While a thread has the lock the others are at points without it. -/
theorem Exclusive.others {P : Program σ π ε κ} {m : Monitor σ π} (h : Exclusive P m) {j : Nat} {p : π}
    (hp : m.threads[j]? = some p) (hl : P.locked p = true) (q : π) :
    ∃ rest, m.threads.Perm (p :: rest) ∧ (m.threads.set j q).Perm (q :: rest) ∧
      ∀ r ∈ rest, P.locked r = false := by
  obtain ⟨hold, hnew⟩ := threads_eraseIdx hp q
  refine ⟨_, hold, hnew, fun r hr => ?_⟩
  obtain ⟨k, hkj, hk⟩ := List.mem_eraseIdx_iff_getElem?.mp hr
  exact Bool.eq_false_iff.mpr fun hlr => hkj (h.unique hk hp hlr hl)

theorem Exclusive.step_call {P : Program σ π ε κ} {m : Monitor σ π} (h : Exclusive P m) {s : σ} {p : π}
    (hp : P.locked p = false) : Exclusive P ⟨s, m.lock, m.threads ++ [p]⟩ := by
  refine ⟨fun j r hr => ?_, fun j hj => ?_⟩
  · rcases threads_append hr with hr | ⟨rfl, rfl⟩
    · exact h.holds j r hr
    · rw [hp]
      refine ⟨(fun he => by cases he), fun hl => ?_⟩
      exact absurd (h.held _ hl) (Nat.lt_irrefl _)
  · simp only [List.length_append, List.length_singleton]
    exact Nat.lt_succ_of_lt (h.held j hj)

theorem Exclusive.step_next {P : Program σ π ε κ} {m : Monitor σ π} (h : Exclusive P m) {j : Nat}
    {p q : π} (s : σ) {lock : Option Nat} (hp : m.threads[j]? = some p)
    (hl : relock P m.lock j p q = some lock) : Exclusive P ⟨s, lock, m.threads.set j q⟩ := by
  have hj : j < m.threads.length := (List.getElem?_eq_some_iff.mp hp).1
  have hown := h.holds j p hp
  refine ⟨fun k r hr => ?_, fun k hk => ?_⟩
  · rcases threads_set hr with ⟨rfl, rfl⟩ | ⟨hkj, hr⟩
    · rcases relock_cases hl with ⟨-, hq, -, rfl⟩ | ⟨-, hq, rfl⟩ | ⟨hpq, rfl⟩
      · simp [hq]
      · simp [hq]
      · rw [← hpq]
        exact hown
    · have hother := h.holds k r hr
      rcases relock_cases hl with ⟨-, -, hfree, rfl⟩ | ⟨hpl, -, rfl⟩ | ⟨-, rfl⟩
      · rw [hother, hfree]
        simp [Ne.symm hkj]
      · rw [hother, hown.mp hpl]
        simp [Ne.symm hkj]
      · exact hother
  · rw [List.length_set]
    rcases relock_cases hl with ⟨-, -, -, rfl⟩ | ⟨-, -, rfl⟩ | ⟨-, rfl⟩
    · cases hk
      exact hj
    · cases hk
    · exact h.held k hk

/-- What has to be shown of a program: `inv` is kept by those who take the lock and give it back, and
`cond` by those in between; the others touch neither. -/
structure Guarded (P : Program σ π ε κ) (inv : σ → Prop) (cond : π → σ → Prop) : Prop where
  start : ∀ s k s' p, P.start s k = some (s', p) →
    P.locked p = false ∧ (inv s → inv s') ∧ ∀ q, cond q s → cond q s'
  outside : ∀ s p e s' q, P.next s p e = some (s', q) → P.locked p = false → P.locked q = false →
    (inv s → inv s') ∧ ∀ r, cond r s → cond r s'
  take : ∀ s p e s' q, P.next s p e = some (s', q) → P.locked p = false → P.locked q = true →
    inv s → cond q s'
  inside : ∀ s p e s' q, P.next s p e = some (s', q) → P.locked p = true → P.locked q = true →
    cond p s → cond q s'
  leave : ∀ s p e s' q, P.next s p e = some (s', q) → P.locked p = true → P.locked q = false →
    cond p s → inv s'

/-- The state of a monitor that keeps them. -/
structure Guards (P : Program σ π ε κ) (inv : σ → Prop) (cond : π → σ → Prop) (m : Monitor σ π) :
    Prop where
  exclusive : Exclusive P m
  free : m.lock = none → inv m.shared
  busy : ∀ (j : Nat) p, m.threads[j]? = some p → P.locked p = true → cond p m.shared

section Guarded

variable {P : Program σ π ε κ} {inv : σ → Prop} {cond : π → σ → Prop} {m m' : Monitor σ π}

theorem Guards.init {s : σ} (h : inv s) : Guards P inv cond (.init s) :=
  ⟨⟨by simp [Monitor.init], by simp [Monitor.init]⟩, fun _ => h, by simp [Monitor.init]⟩

theorem Guarded.step (hg : Guarded P inv cond) {l : Move ε κ} (h : Guards P inv cond m)
    (hs : m.step P l = some m') : Guards P inv cond m' := by
  cases l with
  | call k =>
    obtain ⟨s, p, hstart, rfl⟩ := Monitor.step_call hs
    obtain ⟨hp, hinv, hcond⟩ := hg.start _ _ _ _ hstart
    refine ⟨h.exclusive.step_call hp, fun hf => hinv (h.free hf), fun j r hr hlr => ?_⟩
    rcases threads_append hr with hr | ⟨-, rfl⟩
    · exact hcond r (h.busy j r hr hlr)
    · rw [hp] at hlr
      cases hlr
  | step j e =>
    obtain ⟨p, s, q, lock, hp, hn, hl, rfl⟩ := Monitor.step_next hs
    have hex := h.exclusive.step_next s hp hl
    cases hlp : P.locked p with
    | true =>
      -- nobody else is at a point with the lock
      cases hlq : P.locked q with
      | true =>
        refine ⟨hex, fun hf => ?_, fun k r hr hlr => ?_⟩
        · have := (hex.holds j q (by simp [(List.getElem?_eq_some_iff.mp hp).1])).mp hlq
          rw [show lock = none from hf] at this
          cases this
        · rcases threads_set hr with ⟨-, rfl⟩ | ⟨hkj, hr⟩
          · exact hg.inside _ _ _ _ _ hn hlp hlq (h.busy j p hp hlp)
          · exact absurd (h.exclusive.unique hr hp hlr hlp) hkj
      | false =>
        refine ⟨hex, fun _ => hg.leave _ _ _ _ _ hn hlp hlq (h.busy j p hp hlp), fun k r hr hlr => ?_⟩
        rcases threads_set hr with ⟨-, rfl⟩ | ⟨hkj, hr⟩
        · rw [hlq] at hlr
          cases hlr
        · exact absurd (h.exclusive.unique hr hp hlr hlp) hkj
    | false =>
      cases hlq : P.locked q with
      | true =>
        rcases relock_cases hl with ⟨-, -, hfree, rfl⟩ | ⟨hp', -⟩ | ⟨he, -⟩
        · refine ⟨hex, (fun hf => by cases hf), fun k r hr hlr => ?_⟩
          rcases threads_set hr with ⟨-, rfl⟩ | ⟨-, hr⟩
          · exact hg.take _ _ _ _ _ hn hlp hlq (h.free hfree)
          · rw [(h.exclusive.holds k r hr), hfree] at hlr
            cases hlr
        · rw [hlp] at hp'
          cases hp'
        · rw [hlp, hlq] at he
          cases he
      | false =>
        obtain ⟨hinv, hcond⟩ := hg.outside _ _ _ _ _ hn hlp hlq
        have hsame : lock = m.lock := by
          rcases relock_cases hl with ⟨-, hq', -⟩ | ⟨hp', -⟩ | ⟨-, he⟩
          · rw [hlq] at hq'
            cases hq'
          · rw [hlp] at hp'
            cases hp'
          · exact he
        refine ⟨hex, fun hf => hinv (h.free (hsame ▸ hf)), fun k r hr hlr => ?_⟩
        rcases threads_set hr with ⟨-, rfl⟩ | ⟨-, hr⟩
        · rw [hlq] at hlr
          cases hlr
        · exact hcond r (h.busy k r hr hlr)

theorem Guarded.run (hg : Guarded P inv cond) {s : σ} (h₀ : inv s)
    {tr : List (Monitor σ π × Move ε κ)} (hr : Run (Monitor.step P) (.init s) tr m) :
    Guards P inv cond m ∧ ∀ x ∈ tr, Guards P inv cond x.1 :=
  Run.inv (Guards P inv cond) (fun _ _ => True) (fun _ _ _ h _ hs => hg.step h hs) hr (.init h₀)
    (fun _ _ => trivial)

end Guarded

/-! ## One thread alone -/

/-- The steps of one call while the others rest. -/
inductive Alone (P : Program σ π ε κ) : σ → π → σ → π → Prop where
  | refl {s : σ} {p : π} : Alone P s p s p
  | cons {s s₁ s₂ : σ} {p q r : π} (e : ε) (hn : P.next s p e = some (s₁, q))
      (h : Alone P s₁ q s₂ r) : Alone P s p s₂ r

theorem Alone.trans {P : Program σ π ε κ} {s s₁ s₂ : σ} {p q r : π} (h : Alone P s p s₁ q)
    (h' : Alone P s₁ q s₂ r) : Alone P s p s₂ r := by
  induction h with
  | refl => exact h'
  | cons e hn _ ih => exact .cons e hn (ih h')

/-- They can be taken: the lock is free when the call asks for it. -/
theorem Alone.run {P : Program σ π ε κ} {s s' : σ} {p q : π} (h : Alone P s p s' q) (ts : List π) :
    ∃ (es : List ε) (tr : List (Monitor σ π × Move ε κ)), tr.map Prod.snd = es.map (.step ts.length) ∧
      Run (Monitor.step P) ⟨s, if P.locked p then some ts.length else none, ts ++ [p]⟩ tr
        ⟨s', if P.locked q then some ts.length else none, ts ++ [q]⟩ := by
  induction h with
  | refl => exact ⟨[], [], rfl, .refl⟩
  | @cons s s₁ s₂ p q r e hn _ ih =>
    obtain ⟨es, tr, htr, hr⟩ := ih
    have hset : (ts ++ [p]).set ts.length q = ts ++ [q] := by
      rw [List.set_append_right _ _ (Nat.le_refl _), Nat.sub_self]
      rfl
    have hlock : relock P (if P.locked p then some ts.length else none) ts.length p q =
        some (if P.locked q then some ts.length else none) := by
      unfold relock
      cases P.locked p <;> cases P.locked q <;> rfl
    refine ⟨e :: es, _, ?_, .cons (l := .step ts.length e) ?_ hr⟩
    · rw [List.map_cons, List.map_cons, htr]
    · simp only [step, List.getElem?_concat_length, hn, hlock, hset, Option.map_some]

/-- The moves of calls that are made one after another, the first one as thread `n`: each is followed
by its own steps, with the answers that they get, and by nothing else before the next one. -/
def serial (n : Nat) : List (κ × List ε) → List (Move ε κ)
  | [] => []
  | (k, es) :: calls => .call k :: es.map (.step n) ++ serial (n + 1) calls

theorem serial_snoc (n : Nat) (calls : List (κ × List ε)) (k : κ) (es : List ε) :
    serial n (calls ++ [(k, es)]) =
      serial n calls ++ .call k :: es.map (.step (n + calls.length)) := by
  induction calls generalizing n with
  | nil => simp [serial]
  | cons c calls ih =>
    rw [List.cons_append, serial, serial, ih, List.length_cons, Nat.add_assoc, Nat.add_comm 1,
      List.append_assoc]

end Monitor
end Lib
end UGDS
