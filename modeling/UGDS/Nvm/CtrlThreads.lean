import UGDS.Lib.Holding
import UGDS.Nvm.Types

/-!
# UGDS.Nvm.CtrlThreads

The references to one controller as several threads take them and give them back (`_nvm_ctrl_get` and
`_nvm_ctrl_put`, `ctrl.cpp`), cut into steps at every access to the container.

Every mapping descriptor, admin reference and `nvm_ctrl_t` has a reference. `held` is the number of
those that no call is about to give back. Callers keep two rules: only what is held is given back, and
who takes a reference keeps another one until the call has counted it (`Holding.Kept`).
`_nvm_mutex_lock` always returns 0.

The device is released under the lock, by the thread that counts down to 0. That thread knows it from
its own `count` when it has left the lock, and frees the container.

* `Inv`: either the controller is in use, or one thread is taking it down and no other has anything to
  do with it any more.
* `ctrl_refs_threads`: the device is released once, and the container is freed once, by the last one.
-/

namespace UGDS
namespace Nvm

open Lib

/-- A caller takes one more reference, or gives one back. -/
inductive RefCall where
  | get
  | put
  deriving DecidableEq, Repr

namespace CtrlThreads

/-- What is done to the device and to the container. -/
inductive Ev where
  | releaseDevice
  | mutexFree
  | free
  deriving DecidableEq, Repr

/-- Where a call stands; `putUnlock` has the local `count` of `_nvm_ctrl_put`. `removeHandle` and
`free` are the two steps of `remove_handle`. -/
inductive Point where
  | getLock
  | getCount
  | getUnlock
  | putLock
  | putCount
  | putRelease
  | putUnlock (count : Nat)
  | removeHandle
  | free
  | done
  deriving DecidableEq, Repr

structure Shared where
  count : Nat
  /-- `device` is not `NULL`. -/
  device : Bool
  held : Nat
  log : List Ev

namespace Point

def locked : Point → Bool
  | .getCount | .getUnlock | .putCount | .putRelease | .putUnlock _ => true
  | _ => false

/-- The step from a point. -/
def next (s : Shared) : Point → Option (Shared × Point)
  | .getLock => some (s, .getCount)
  | .getCount => some ({ s with count := u32 (s.count + 1) }, .getUnlock)
  | .getUnlock => some ({ s with held := s.held + 1 }, .done)
  | .putLock => some (s, .putCount)
  | .putCount =>
    let count := u32 (s.count + (2 ^ 32 - 1))
    some ({ s with count := count }, if count = 0 then .putRelease else .putUnlock count)
  | .putRelease =>
    let log := if s.device then s.log ++ [.releaseDevice] else s.log
    some ({ s with device := false, log := log }, .putUnlock 0)
  | .putUnlock count => some (s, if count = 0 then .removeHandle else .done)
  | .removeHandle => some ({ s with log := s.log ++ [.mutexFree] }, .free)
  | .free => some ({ s with log := s.log ++ [.free] }, .done)
  | .done => none

/-- Between the call of `_nvm_ctrl_get` and `++count`. -/
def getting : Point → Bool
  | .getLock | .getCount => true
  | _ => false

/-- The call has a reference that is counted. -/
def counted : Point → Bool
  | .getUnlock | .putLock | .putCount => true
  | _ => false

/-- What the thread has done that has counted down to 0. -/
def progress (device : Bool) : Point → Option (List Ev)
  | .putRelease => some []
  | .putUnlock 0 | .removeHandle => some (if device then [.releaseDevice] else [])
  | .free => some (if device then [.releaseDevice, .mutexFree] else [.mutexFree])
  | .done => some (if device then [.releaseDevice, .mutexFree, .free] else [.mutexFree, .free])
  | _ => none

/-- A point of a controller that is in use. -/
def ordinary : Point → Bool
  | .putRelease | .putUnlock 0 | .removeHandle | .free => false
  | _ => true

/-- The step counts down to 0, or does something to the device or to the container. -/
def takesDown (s : Shared) : Point → Bool
  | .putCount => u32 (s.count + (2 ^ 32 - 1)) = 0
  | .putRelease | .removeHandle | .free => true
  | _ => false

end Point

/-- Where a call begins. -/
def start (s : Shared) : RefCall → Option (Shared × Point)
  | .get => if s.held = 0 then none else some (s, .getLock)
  | .put => if s.held = 0 then none else some ({ s with held := s.held - 1 }, .putLock)

def program : Program Shared Point Unit RefCall where
  start := start
  next s p _ := p.next s
  locked := Point.locked

/-- `create_handle`: the reference of the `nvm_ctrl_t`. -/
def created (device : Bool) : Shared := ⟨1, device, 1, []⟩

abbrev State : Type := Monitor Shared Point

def holding : Holding Shared Point := ⟨Shared.held, Point.counted, Point.getting⟩

/-! ## The invariant -/

/-- The controller is in use. -/
structure Alive (device : Bool) (m : State) : Prop where
  refs : 0 < holding.refs m
  log : m.shared.log = []
  device : m.shared.device = device
  ordinary : ∀ p ∈ m.threads, p.ordinary = true

/-- One thread takes it down, or has done so; the others are through. -/
structure Dead (device : Bool) (m : State) : Prop where
  held : m.shared.held = 0
  last : ∃ p rest, m.threads.Perm (p :: rest) ∧ (∀ r ∈ rest, r = .done) ∧
    p.progress device = some m.shared.log ∧ (p = .putRelease → m.shared.device = device)

structure Inv (device : Bool) (m : State) : Prop where
  exclusive : Monitor.Exclusive program m
  count : m.shared.count = holding.refs m
  phase : Alive device m ∨ Dead device m

section Step

variable {device : Bool} {m : State} {s s' : Shared} {p q : Point} {lock : Option Nat}

theorem not_counted_of_progress {log : List Ev} (h : p.progress device = some log) :
    p.counted = false := by
  cases p <;> first | rfl | cases h

theorem Dead.refs (h : Dead device m) : holding.refs m = 0 := by
  obtain ⟨p, rest, hperm, hrest, hp, -⟩ := h.last
  refine (Holding.refs_of_not_counted fun r hr => ?_).trans h.held
  rcases List.mem_cons.mp (hperm.mem_iff.mp hr) with rfl | hr
  · exact not_counted_of_progress hp
  · rw [hrest r hr]
    rfl

/-- The last reference is counted down: everyone else is through. -/
theorem rest_done (h : Inv device m) (ha : Alive device m) (hk : holding.Kept m) {j : Nat}
    (hp : m.threads[j]? = some .putCount) (hone : holding.refs m = 1) (q : Point) :
    m.shared.held = 0 ∧ ∃ rest, (m.threads.set j q).Perm (q :: rest) ∧ ∀ r ∈ rest, r = .done := by
  obtain ⟨hheld, rest, hnew, hrest⟩ := Holding.last h.exclusive hk hp rfl rfl hone q
  refine ⟨hheld, rest, hnew, fun r hr => ?_⟩
  obtain ⟨hmem, hcounted, hgetting, hlocked⟩ := hrest r hr
  have hord := ha.ordinary r hmem
  cases r with
  | getLock => cases hgetting
  | putLock => cases hcounted
  | getCount | getUnlock | putCount | putRelease | putUnlock n => cases hlocked
  | removeHandle | free => cases hord
  | done => rfl

theorem ordinary_set {j : Nat} (h : ∀ r ∈ m.threads, r.ordinary = true) (hq : q.ordinary = true) :
    ∀ r ∈ m.threads.set j q, r.ordinary = true := by
  intro r hr
  rcases List.mem_or_eq_of_mem_set hr with hr | rfl
  · exact h r hr
  · exact hq

/-- A step of a controller in use that leaves it so. -/
theorem Alive.keep {j : Nat} (ha : Alive device m) (ht : p.takesDown m.shared = false)
    (hq : q.ordinary = true) (hlog : s.log = m.shared.log) (hdev : s.device = m.shared.device)
    (hcount : s.count = holding.refs ⟨s, lock, m.threads.set j q⟩) (hpos : 0 < s.count) :
    s.count = holding.refs ⟨s, lock, m.threads.set j q⟩ ∧
      (p.takesDown m.shared = false ∧ Alive device ⟨s, lock, m.threads.set j q⟩ ∨
        q = .putRelease ∧ Dead device ⟨s, lock, m.threads.set j q⟩) :=
  ⟨hcount, .inl ⟨ht, hcount ▸ hpos, hlog.trans ha.log, hdev.trans ha.device,
    ordinary_set ha.ordinary hq⟩⟩

/-- A step of a controller in use: it stays so, or the last reference was counted down. -/
theorem Alive.step (lock : Option Nat) {j : Nat} (h : Inv device m) (ha : Alive device m)
    (hk : holding.Kept m) (hroom : holding.refs m + 1 < 2 ^ 32) (hp : m.threads[j]? = some p)
    (hn : p.next m.shared = some (s, q)) :
    s.count = holding.refs ⟨s, lock, m.threads.set j q⟩ ∧
      (p.takesDown m.shared = false ∧ Alive device ⟨s, lock, m.threads.set j q⟩ ∨
        q = .putRelease ∧ Dead device ⟨s, lock, m.threads.set j q⟩) := by
  have hrefs : holding.refs ⟨s, lock, m.threads.set j q⟩ + m.shared.held + p.counted.toNat =
    holding.refs m + s.held + q.counted.toNat := Holding.refs_set hp
  have hcount := h.count
  have hpos := ha.refs
  have hord := ha.ordinary p (List.mem_of_getElem? hp)
  cases p with
  | getLock | putLock =>
    cases hn
    simp only [Point.counted, Bool.toNat_false, Bool.toNat_true] at hrefs
    exact ha.keep rfl rfl rfl rfl (by omega) (by omega)
  | getCount =>
    cases hn
    simp only [Point.counted, Bool.toNat_false, Bool.toNat_true] at hrefs
    have hcount' : u32 (m.shared.count + 1) = m.shared.count + 1 := Nat.mod_eq_of_lt (by omega)
    exact ha.keep rfl rfl rfl rfl (by simp only; omega) (by simp only; omega)
  | getUnlock =>
    cases hn
    simp only [Point.counted, Bool.toNat_false, Bool.toNat_true] at hrefs
    exact ha.keep rfl rfl rfl rfl (by simp only; omega) (by simp only; omega)
  | putCount =>
    have hcount' : u32 (m.shared.count + (2 ^ 32 - 1)) = m.shared.count - 1 := by
      unfold u32
      omega
    simp only [Point.next, hcount'] at hn
    cases hn
    by_cases hzero : m.shared.count - 1 = 0
    · obtain ⟨hheld, rest, hperm, hrest⟩ := rest_done h ha hk hp (by omega) .putRelease
      simp only [if_pos hzero, Point.counted, Bool.toNat_false, Bool.toNat_true] at hrefs ⊢
      refine ⟨by omega, .inr ⟨trivial, hheld, .putRelease, rest, hperm, hrest, ?_, fun _ => ha.device⟩⟩
      rw [ha.log]
      rfl
    · have hq : (Point.putUnlock (m.shared.count - 1)).ordinary = true := by
        obtain ⟨n, hn⟩ := Nat.exists_eq_succ_of_ne_zero hzero
        rw [hn]
        rfl
      have ht : Point.putCount.takesDown m.shared = false := by
        simpa only [Point.takesDown, hcount', decide_eq_false_iff_not] using hzero
      rw [if_neg hzero] at hrefs ⊢
      simp only [Point.counted, Bool.toNat_false, Bool.toNat_true] at hrefs
      exact ha.keep ht hq rfl rfl (by simp only; omega) (by simp only; omega)
  | putUnlock n =>
    cases n with
    | zero => cases hord
    | succ n =>
      cases hn
      simp only [if_neg (Nat.succ_ne_zero n), Point.counted, Bool.toNat_false] at hrefs ⊢
      exact ha.keep rfl rfl rfl rfl (by omega) (by omega)
  | putRelease | removeHandle | free => cases hord
  | done => cases hn

/-- A thread that is not through is the one that takes the controller down. -/
theorem Dead.others (hd : Dead device m) {j : Nat} (hp : m.threads[j]? = some p) (hne : p ≠ .done)
    (q : Point) :
    (p.progress device = some m.shared.log ∧ (p = .putRelease → m.shared.device = device)) ∧
      ∃ rest, (m.threads.set j q).Perm (q :: rest) ∧ ∀ r ∈ rest, r = .done := by
  obtain ⟨p₀, rest₀, hperm, hrest, hprog⟩ := hd.last
  obtain ⟨rest, hold, hnew⟩ := Monitor.threads_perm hp q
  obtain rfl : p = p₀ := by
    rcases List.mem_cons.mp (hperm.mem_iff.mp (List.mem_of_getElem? hp)) with hp₀ | hr
    · exact hp₀
    · exact absurd (hrest p hr) hne
  exact ⟨hprog, rest, hnew, fun r hr => hrest r (((hold.symm.trans hperm).cons_inv).mem_iff.mp hr)⟩

theorem Dead.unique (hd : Dead device m) {j k : Nat} (hp : m.threads[j]? = some p) (hne : p ≠ .done)
    (hq : m.threads[k]? = some q) (hne' : q ≠ .done) : k = j := by
  by_contra hkj
  obtain ⟨-, rest, hperm, hrest⟩ := hd.others hp hne .done
  have hmem : q ∈ m.threads.set j .done := by
    rw [← List.getElem?_set_ne (Ne.symm hkj)] at hq
    exact List.mem_of_getElem? hq
  rcases List.mem_cons.mp (hperm.mem_iff.mp hmem) with he | hr
  · exact hne' he
  · exact hne' (hrest q hr)

theorem not_done_of_next (h : p.next s = some (s', q)) : p ≠ .done := by
  rintro rfl
  cases h

/-- A step of the thread that takes the controller down. -/
theorem Dead.step (lock : Option Nat) {j : Nat} (hd : Dead device m) (hp : m.threads[j]? = some p)
    (hn : p.next m.shared = some (s, q)) :
    s.count = m.shared.count ∧ Dead device ⟨s, lock, m.threads.set j q⟩ := by
  obtain ⟨⟨hprog, hdev⟩, rest, hnew, hrest'⟩ := hd.others hp (not_done_of_next hn) q
  cases p with
  | putRelease =>
    cases hn
    refine ⟨rfl, hd.held, .putUnlock 0, rest, hnew, hrest', ?_, nofun⟩
    simp only [Point.progress, Option.some.injEq] at hprog ⊢
    rw [hdev rfl, ← hprog]
    rfl
  | putUnlock n =>
    cases n with
    | zero =>
      cases hn
      exact ⟨rfl, hd.held, .removeHandle, rest, hnew, hrest', hprog, nofun⟩
    | succ n => cases hprog
  | removeHandle =>
    cases hn
    refine ⟨rfl, hd.held, .free, rest, hnew, hrest', ?_, nofun⟩
    simp only [Point.progress, Option.some.injEq] at hprog ⊢
    rw [← hprog]
    cases device <;> rfl
  | free =>
    cases hn
    refine ⟨rfl, hd.held, .done, rest, hnew, hrest', ?_, nofun⟩
    simp only [Point.progress, Option.some.injEq] at hprog ⊢
    rw [← hprog]
    cases device <;> rfl
  | getLock | getCount | getUnlock | putLock | putCount => cases hprog
  | done => cases hn

/-- What a call that begins finds and leaves. -/
theorem start_ok {k : RefCall} (hs : start m.shared k = some (s, p)) :
    0 < m.shared.held ∧ s.held + p.counted.toNat = m.shared.held ∧ s.count = m.shared.count ∧
      s.log = m.shared.log ∧ s.device = m.shared.device ∧ p.ordinary = true ∧ p.locked = false := by
  by_cases hzero : m.shared.held = 0
  · cases k <;> simp only [start, if_pos hzero] at hs <;> cases hs
  · have hpos := Nat.pos_of_ne_zero hzero
    cases k <;> simp only [start, if_neg hzero] at hs <;> cases hs
    · exact ⟨hpos, rfl, rfl, rfl, rfl, rfl, rfl⟩
    · exact ⟨hpos, Nat.sub_add_cancel hpos, rfl, rfl, rfl, rfl, rfl⟩

/-- A call can begin only while the controller is in use. -/
theorem Alive.call {k : RefCall} (ha : Alive device m) (hs : start m.shared k = some (s, p)) :
    holding.refs ⟨s, m.lock, m.threads ++ [p]⟩ = holding.refs m ∧
      Alive device ⟨s, m.lock, m.threads ++ [p]⟩ := by
  obtain ⟨hpos, hheld, -, hlog, hdev, hord, -⟩ := start_ok hs
  have hrefs : holding.refs ⟨s, m.lock, m.threads ++ [p]⟩ + m.shared.held =
    holding.refs m + s.held + p.counted.toNat := Holding.refs_append
  have hsame : holding.refs ⟨s, m.lock, m.threads ++ [p]⟩ = holding.refs m := by omega
  refine ⟨hsame, hsame ▸ ha.refs, hlog.trans ha.log, hdev.trans ha.device, fun r hr => ?_⟩
  rcases List.mem_append.mp hr with hr | hr
  · exact ha.ordinary r hr
  · rw [List.mem_singleton.mp hr]
    exact hord

theorem Inv.step_call {k : RefCall} (h : Inv device m) (hs : start m.shared k = some (s, p)) :
    Inv device ⟨s, m.lock, m.threads ++ [p]⟩ := by
  obtain ⟨hpos, -, hcount, -, -, -, hlocked⟩ := start_ok hs
  rcases h.phase with ha | hd
  · obtain ⟨hsame, ha'⟩ := ha.call hs
    exact ⟨h.exclusive.step_call hlocked, hcount.trans (h.count.trans hsame.symm), .inl ha'⟩
  · exact absurd hd.held hpos.ne'

theorem Inv.step {l : Monitor.Move Unit RefCall} {m' : State} (h : Inv device m)
    (hk : holding.Kept m) (hroom : holding.refs m + 1 < 2 ^ 32) (hs : m.step program l = some m') :
    Inv device m' := by
  cases l with
  | call k =>
    obtain ⟨s, p, hstart, rfl⟩ := Monitor.step_call hs
    exact h.step_call hstart
  | step j e =>
    obtain ⟨p, s, q, lock, hp, hn, hl, rfl⟩ := Monitor.step_next hs
    have hex := h.exclusive.step_next s hp hl
    rcases h.phase with ha | hd
    · obtain ⟨hcount, hphase⟩ := ha.step lock h hk hroom hp hn
      exact ⟨hex, hcount, hphase.imp And.right And.right⟩
    · obtain ⟨hcount, hdead⟩ := hd.step lock hp hn
      exact ⟨hex, hcount.trans (h.count.trans (hd.refs.trans hdead.refs.symm)), .inr hdead⟩

theorem Alive.created (device : Bool) : Alive device (.init (created device)) :=
  ⟨Nat.one_pos, rfl, rfl, List.forall_mem_nil _⟩

theorem Inv.created (device : Bool) : Inv device (.init (created device)) :=
  ⟨⟨by simp [Monitor.init], by simp [Monitor.init]⟩, rfl, .inl (.created device)⟩

end Step

/-! ## One thread -/

/-- The thread of a move that counts down to 0 or takes down. -/
def downBy (x : State × Monitor.Move Unit RefCall) : Option Nat :=
  match x.2 with
  | .call _ => none
  | .step j _ => if (x.1.threads[j]?).any (Point.takesDown x.1.shared) then some j else none

/-- Thread `i` has made all such moves of the run, and only it can go on when there was one. -/
structure DownBy (device : Bool) (i : Nat) (tr : List (State × Monitor.Move Unit RefCall)) (m : State) :
    Prop where
  one : ∀ j ∈ tr.filterMap downBy, j = i
  phase : Alive device m ∧ tr.filterMap downBy = [] ∨
    Dead device m ∧ ∀ j p, m.threads[j]? = some p → p ≠ .done → j = i

section DownBy

variable {device : Bool} {i : Nat} {tr : List (State × Monitor.Move Unit RefCall)} {m : State}

theorem downBy_snoc (x : State × Monitor.Move Unit RefCall) :
    (tr ++ [x]).filterMap downBy = tr.filterMap downBy ++ (downBy x).toList := by
  rw [List.filterMap_append]
  cases h : downBy x <;> simp [h]

theorem downBy_step {j k : Nat} {e : Unit} (h : k ∈ (downBy (m, .step j e)).toList) : k = j := by
  simp only [downBy, Option.mem_toList, Option.ite_none_right_eq_some, Option.some.injEq] at h
  exact h.2.symm

theorem DownBy.step {l : Monitor.Move Unit RefCall} {m' : State} (h : DownBy device i tr m)
    (hinv : Inv device m) (hk : holding.Kept m) (hroom : holding.refs m + 1 < 2 ^ 32)
    (hs : m.step program l = some m') : ∃ i, DownBy device i (tr ++ [(m, l)]) m' := by
  cases l with
  | call k =>
    obtain ⟨s, p, hstart, rfl⟩ := Monitor.step_call hs
    have hdown : (tr ++ [(m, Monitor.Move.call k)]).filterMap downBy = tr.filterMap downBy := by
      rw [downBy_snoc]
      exact List.append_nil _
    rcases h.phase with ⟨ha, hnil⟩ | ⟨hd, -⟩
    · exact ⟨i, by rw [hdown]; exact h.one, .inl ⟨(ha.call hstart).2, by rw [hdown]; exact hnil⟩⟩
    · exact absurd hd.held (start_ok hstart).1.ne'
  | step j e =>
    obtain ⟨p, s, q, lock, hp, hn, hl, rfl⟩ := Monitor.step_next hs
    have hdown (k : Nat) (hk : k ∈ (tr ++ [(m, Monitor.Move.step j e)]).filterMap downBy) :
        k ∈ tr.filterMap downBy ∨ k = j := by
      rw [downBy_snoc, List.mem_append] at hk
      exact hk.imp_right downBy_step
    rcases h.phase with ⟨ha, hnil⟩ | ⟨hd, hone⟩
    · rcases (ha.step lock hinv hk hroom hp hn).2 with ⟨ht, ha'⟩ | ⟨rfl, hd'⟩
      · have hnone : downBy (m, .step j e) = none := by
          simp only [downBy, hp, Option.any_some, ht]
          rfl
        have hnil' : (tr ++ [(m, Monitor.Move.step j e)]).filterMap downBy = [] := by
          rw [downBy_snoc, hnil, hnone]
          rfl
        exact ⟨i, by rw [hnil']; exact List.forall_mem_nil _, .inl ⟨ha', hnil'⟩⟩
      · -- the first such move: thread `j` is the only one that can go on
        refine ⟨j, fun k hk => ?_, .inr ⟨hd', fun k r hr hne => ?_⟩⟩
        · refine (hdown k hk).resolve_left fun hmem => ?_
          rw [hnil] at hmem
          cases hmem
        · have hj : (m.threads.set j .putRelease)[j]? = some .putRelease :=
            List.getElem?_set_self (List.getElem?_eq_some_iff.mp hp).1
          exact hd'.unique hj Point.noConfusion hr hne
    · have hji := hone j p hp (not_done_of_next hn)
      refine ⟨i, fun k hk => ?_, .inr ⟨(hd.step lock hp hn).2, fun k r hr hne => ?_⟩⟩
      · exact (hdown k hk).elim (h.one k) fun he => he.trans hji
      · rcases Monitor.threads_set hr with ⟨he, -⟩ | ⟨-, hr⟩
        · exact he.trans hji
        · exact hone k r hr hne

end DownBy

theorem run_inv {device : Bool} {tr : List (State × Monitor.Move Unit RefCall)} {m : State}
    (hr : Run (Monitor.step program) (.init (created device)) tr m)
    (hkept : ∀ x ∈ tr, holding.Kept x.1 ∧ holding.refs x.1 + 1 < 2 ^ 32) :
    Inv device m ∧ ∃ i, DownBy device i tr m := by
  have hstart : Inv device (.init (created device)) ∧ ∃ i, DownBy device i [] (.init (created device)) :=
    ⟨.created device, 0, List.forall_mem_nil _, .inl ⟨.created device, rfl⟩⟩
  refine Run.inv_trace (fun tr m => (∀ x ∈ tr, holding.Kept x.1 ∧ holding.refs x.1 + 1 < 2 ^ 32) →
    Inv device m ∧ ∃ i, DownBy device i tr m) (fun tr m l m' h hs hkept => ?_) hr (fun _ => hstart) hkept
  obtain ⟨hk, hroom⟩ := hkept (m, l) (List.mem_append_right _ (List.mem_singleton.mpr rfl))
  obtain ⟨hinv, i, hi⟩ := h fun x hx => hkept x (List.mem_append_left _ hx)
  exact ⟨hinv.step hk hroom hs, hi.step hinv hk hroom hs⟩

/-! ## Runs -/

/-- What is done to a controller that nobody uses any more. -/
def takenDown (device : Bool) : List Ev :=
  if device then [.releaseDevice, .mutexFree, .free] else [.mutexFree, .free]

theorem progress_takenDown {device : Bool} {p : Point} {log : List Ev}
    (h : p.progress device = some log) : log <+: takenDown device ∧ (.free ∈ log → p = .done) := by
  cases p with
  | putUnlock n =>
    cases n with
    | zero => cases device <;> cases h <;> decide
    | succ n => cases h
  | getLock | getCount | getUnlock | putLock | putCount => cases h
  | putRelease | removeHandle | free | done => cases device <;> cases h <;> decide

/-- References to a controller, taken and given back by any threads in any interleaving. As long as
there are references nothing is done to the device and the container. When there are none, one thread
is taking it down, step by step and once: the one that has counted down to 0. When the container is
freed, no thread has anything to do with it any more. -/
theorem ctrl_refs_threads {device : Bool} {tr : List (State × Monitor.Move Unit RefCall)} {m : State}
    (hr : Run (Monitor.step program) (.init (created device)) tr m)
    (hkept : ∀ x ∈ tr, holding.Kept x.1 ∧ holding.refs x.1 + 1 < 2 ^ 32) :
    Monitor.Exclusive program m ∧ m.shared.count = holding.refs m ∧
      (m.shared.log ≠ [] → holding.refs m = 0) ∧ m.shared.log <+: takenDown device ∧
      (∃ i, ∀ j ∈ tr.filterMap downBy, j = i) ∧
      (.free ∈ m.shared.log → ∀ p ∈ m.threads, p = .done) ∧
      ((∀ p ∈ m.threads, p = .done) →
        m.shared.log = if m.shared.held = 0 then takenDown device else []) := by
  obtain ⟨hinv, i, hi⟩ := run_inv hr hkept
  refine ⟨hinv.exclusive, hinv.count, ?_⟩
  rcases hinv.phase with ha | hd
  · refine ⟨fun hne => absurd ha.log hne, ?_, ⟨i, hi.one⟩, ?_, fun hdone => ?_⟩
    · rw [ha.log]
      exact List.nil_prefix
    · rw [ha.log]
      nofun
    · have hrefs : holding.refs m = m.shared.held :=
        Holding.refs_of_not_counted fun p hp => by rw [hdone p hp]; rfl
      rw [if_neg (hrefs ▸ ha.refs.ne'), ha.log]
  · obtain ⟨p, rest, hperm, hrest, hp, -⟩ := hd.last
    obtain ⟨hpre, hfree⟩ := progress_takenDown hp
    refine ⟨fun _ => hd.refs, hpre, ⟨i, hi.one⟩, fun hmem q hq => ?_, fun hdone => ?_⟩
    · rcases List.mem_cons.mp (hperm.mem_iff.mp hq) with rfl | hq
      · exact hfree hmem
      · exact hrest q hq
    · rw [if_pos hd.held]
      rw [hdone p (hperm.mem_iff.mpr List.mem_cons_self)] at hp
      exact (Option.some.inj hp).symm

/-- A reference is taken; then there are two calls at a time that give one back. -/
def twoPuts : List (Monitor.Move Unit RefCall) :=
  [.call .get, .step 0 (), .step 0 (), .step 0 (), .call .put, .call .put, .step 1 (), .step 1 (),
    .step 1 (), .step 2 (), .step 2 (), .step 2 (), .step 2 (), .step 2 (), .step 2 ()]

theorem ctrl_refs_threads_two :
    ∃ tr m, Run (Monitor.step program) (.init (created true)) tr m ∧
      tr.map Prod.snd = twoPuts ∧ m.shared.log = takenDown true := by
  obtain ⟨tr, m, hr, htr, hg, hp⟩ := follow_trace (Monitor.step program)
    (fun m _ => decide (holding.Kept m ∧ holding.refs m + 1 < 2 ^ 32)) (.init (created true)) twoPuts
    (fun m => decide (m.shared.held = 0 ∧ ∀ p ∈ m.threads, p = .done)) (by decide +kernel)
  obtain ⟨hheld, hdone⟩ := of_decide_eq_true hp
  obtain ⟨-, -, -, -, -, -, hend⟩ := ctrl_refs_threads hr fun x hx => of_decide_eq_true (hg x hx)
  refine ⟨tr, m, hr, htr, ?_⟩
  rw [hend hdone, if_pos hheld]

end CtrlThreads
end Nvm
end UGDS
