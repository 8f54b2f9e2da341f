import UGDS.Api.Interleaved

/-!
# UGDS.Api.Overlap

The two places where the library reads `g_driver` without its lock, and what calls that overlap there
can see.

* `io_handle_unmapped`: `do_io` keeps the handle that it has looked up. It is unmapped under the call
  exactly if `uGDSBufDeregister` of the same pointer or `uGDSDriverClose` comes after the lookup.
* `closed_driver_empty`: `initialized` is tested before the lock is taken. A driver that is not open
  has no buffers and no default controller as long as no registration of a handle is under way when it
  is closed; otherwise both can be there.
-/

namespace UGDS

open Lib

namespace Point

variable {s s' : DriverState} {p q : Point}

/-- The entry whose handle the next step unmaps. -/
def unmaps (s : DriverState) : Point → Option Entry
  | .closeUnmap (e :: _) => some e
  | .deregFind base => s.find base
  | _ => none

/-- What a step adds to the records. -/
theorem Takes.records (h : Takes s p s' q) :
    s'.unmapped = s.unmapped ++ (p.unmaps s).toList.map Entry.id ∧ s.made <+: s'.made := by
  cases h with
  | closeUnmap => exact ⟨rfl, List.prefix_rfl⟩
  | regMap => exact ⟨(List.append_nil _).symm, List.prefix_append _ _⟩
  | deregMissing hf => exact ⟨by rw [unmaps, hf]; exact (List.append_nil _).symm, List.prefix_rfl⟩
  | deregFind hf => exact ⟨by rw [unmaps, hf]; rfl, List.prefix_rfl⟩
  | _ => exact ⟨(List.append_nil _).symm, List.prefix_rfl⟩

/-- `do_io` gets to its handle from the end of its section. -/
theorem Takes.ioUse_of {base : Nat} {id : Option Nat} (h : Takes s p s' (.ioUse base id)) :
    p = .leave (.ioUse base id) ∧ s' = s := by
  cases h with
  | leave => exact ⟨rfl, rfl⟩

end Point

namespace Driver

variable {m m' : Driver} {tr : List (Driver × Driver.Move)}

/-- At step `x` the handle `id` of `base` is unmapped, while call `k` uses it. -/
def UnmapsUnder (k base id : Nat) (x : Driver × Driver.Move) : Prop :=
  x.1.threads[k]? = some (.ioUse base (some id)) ∧
    ∃ j ok p, x.2 = .step j ok ∧ x.1.threads[j]? = some p ∧ p.unmaps x.1.shared = some ⟨base, id⟩

/-- What is known of the handles in use. -/
structure InUse (tr : List (Driver × Driver.Move)) (m : Driver) : Prop where
  inv : Inv m
  past : ∀ k base id, ∀ x ∈ tr, UnmapsUnder k base id x → id ∈ m.shared.unmapped
  use : ∀ (k base id : Nat), m.threads[k]? = some (.ioUse base (some id)) →
    m.shared.made[id]? = some base ∧
      (id ∈ m.shared.unmapped → ∃ x ∈ tr, UnmapsUnder k base id x)

/-- The entry that is unmapped has the pointer that its handle was made for. -/
theorem Inv.unmaps_key (h : Inv m) {j : Nat} {p : Point} {e : Entry} (hp : m.threads[j]? = some p)
    (he : p.unmaps m.shared = some e) : m.shared.made[e.id]? = some e.key := by
  have hmem : e ∈ m.shared.bufRegistry := by
    cases p with
    | closeUnmap rest =>
      cases rest with
      | nil => cases he
      | cons e' rest =>
        cases he
        exact (h.guards.busy j _ hp rfl).found e List.mem_cons_self
    | deregFind base => exact (DriverState.find_some he).1
    | _ => cases he
  exact h.keyed.1.made e hmem

theorem made_mono {s s' : DriverState} {id base : Nat} (h : s.made <+: s'.made)
    (hm : s.made[id]? = some base) : s'.made[id]? = some base := by
  obtain ⟨new, hnew⟩ := h
  rw [← hnew, List.getElem?_append_left (List.getElem?_eq_some_iff.mp hm).1]
  exact hm

theorem InUse.step_call (h : InUse tr m) {k : DriverCall} {s : DriverState} {p : Point}
    (hs : k.start m.shared = some (s, p)) (hi : Inv ⟨s, m.lock, m.threads ++ [p]⟩) :
    InUse (tr ++ [(m, .call k)]) ⟨s, m.lock, m.threads ++ [p]⟩ := by
  obtain ⟨-, hsame⟩ := DriverCall.start_same hs
  refine ⟨hi, fun k' base id x hx hu => ?_, fun k' base id hk => ?_⟩
  · show id ∈ s.unmapped
    rw [hsame.unmapped]
    rcases List.mem_append.mp hx with hx | hx
    · exact h.past k' base id x hx hu
    · obtain ⟨-, j, ok, q, hmove, -⟩ := hu
      rw [List.mem_singleton.mp hx] at hmove
      cases hmove
  · rcases Monitor.threads_append hk with hk | ⟨-, hp⟩
    · obtain ⟨hmade, huse⟩ := h.use k' base id hk
      refine ⟨by rw [show _ = s.made from rfl, hsame.made]; exact hmade, fun hun => ?_⟩
      obtain ⟨x, hx, hu⟩ := huse (hsame.unmapped ▸ hun)
      exact ⟨x, List.mem_append_left _ hx, hu⟩
    · -- no call begins with a handle
      rw [← hp] at hs
      cases k with
      | handleDeregister ctrl =>
        simp only [DriverCall.start] at hs
        split_ifs at hs
        cases hs
      | _ => cases hs

theorem InUse.step_next (h : InUse tr m) {j : Nat} {ok : Bool} {p q : Point} {s : DriverState}
    {lock : Option Nat} (hp : m.threads[j]? = some p) (ht : Point.Takes m.shared p s q)
    (hi : Inv ⟨s, lock, m.threads.set j q⟩) :
    InUse (tr ++ [(m, .step j ok)]) ⟨s, lock, m.threads.set j q⟩ := by
  obtain ⟨hun, hmade⟩ := ht.records
  have hgrow {id : Nat} (hid : id ∈ m.shared.unmapped) : id ∈ s.unmapped := by
    rw [hun]
    exact List.mem_append_left _ hid
  refine ⟨hi, fun k base id x hx hu => ?_, fun k base id hk => ?_⟩
  · rcases List.mem_append.mp hx with hx | hx
    · exact hgrow (h.past k base id x hx hu)
    · obtain ⟨-, j', ok', p', hmove, hp', he⟩ := hu
      rw [List.mem_singleton.mp hx] at hmove hp' he
      cases hmove
      cases hp.symm.trans hp'
      show id ∈ s.unmapped
      rw [hun, he]
      exact List.mem_append_right _ (List.mem_singleton_self _)
  · rcases Monitor.threads_set hk with ⟨rfl, rfl⟩ | ⟨hkj, hk⟩
    · -- the call has just given the lock back: its handle is in the registry
      obtain ⟨rfl, rfl⟩ := ht.ioUse_of
      have hh := h.inv.guards.busy k _ hp rfl
      have hmem := hh.found.2 base id rfl
      refine ⟨hh.keyed.made _ hmem, fun hid => ?_⟩
      exact absurd hid (DriverState.Balanced.not_unmapped hh.balanced (List.mem_map_of_mem hmem))
    · obtain ⟨hm, huse⟩ := h.use k base id hk
      refine ⟨made_mono hmade hm, fun hid => ?_⟩
      rw [show _ = s.unmapped from rfl, hun] at hid
      rcases List.mem_append.mp hid with hid | hid
      · obtain ⟨x, hx, hu⟩ := huse hid
        exact ⟨x, List.mem_append_left _ hx, hu⟩
      · obtain ⟨e, he, rfl⟩ := List.mem_map.mp hid
        rw [Option.mem_toList] at he
        have hkey := h.inv.unmaps_key hp he
        obtain rfl : base = e.key := Option.some.inj (hm.symm.trans hkey)
        exact ⟨(m, .step j ok), List.mem_append_right _ (List.mem_singleton_self _), hk, j, ok, p, rfl,
          hp, he⟩

theorem run_inUse (hr : Run Driver.step .init tr m) : InUse tr m := by
  have hinit : InUse [] .init := ⟨.init, by simp, by simp [Driver.init, Monitor.init]⟩
  refine Run.inv_trace InUse (fun tr m l m' h hs => ?_) hr hinit
  have hi := h.inv.step hs
  cases l with
  | call k =>
    obtain ⟨s, p, hstart, rfl⟩ := Monitor.step_call hs
    exact h.step_call hstart hi
  | step j ok =>
    obtain ⟨p, s, q, lock, hp, hn, -, rfl⟩ := Monitor.step_next hs
    exact h.step_next hp (Point.takes_of_next hn) hi

end Driver

/-- A transfer on a registered buffer uses the handle of that buffer. It is unmapped before the
transfer is over exactly if another call has unmapped it since the lookup, and that is then a call
of `uGDSBufDeregister` for this pointer, or of `uGDSDriverClose`. -/
theorem io_handle_unmapped {tr : List (Driver × Driver.Move)} {m : Driver}
    (hr : Run Driver.step .init tr m) {k base id : Nat}
    (hk : m.threads[k]? = some (.ioUse base (some id))) :
    m.shared.made[id]? = some base ∧
      (id ∈ m.shared.unmapped ↔ ∃ x ∈ tr, Driver.UnmapsUnder k base id x) := by
  have h := Driver.run_inUse hr
  obtain ⟨hmade, huse⟩ := h.use k base id hk
  exact ⟨hmade, huse, fun ⟨x, hx, hu⟩ => h.past k base id x hx hu⟩

/-- A buffer is deregistered while a transfer uses it. -/
def unmappedUnderIo : List Driver.Move :=
  [.call .driverOpen, .step 0 true, .step 0 true, .step 0 true,
    .call (.handleRegister false true), .step 1 true, .step 1 true, .step 1 true, .step 1 true,
    .step 1 true, .step 1 true, .step 1 true,
    .call (.bufRegister 8 1), .step 2 true, .step 2 true, .step 2 true, .step 2 true, .step 2 true,
    .step 2 true,
    .call (.io 8), .step 3 true, .step 3 true, .step 3 true,
    .call (.bufDeregister 8), .step 4 true, .step 4 true, .step 4 true, .step 4 true, .step 4 true]

theorem io_handle_unmapped_deregister :
    ∃ tr m, Run Driver.step .init tr m ∧ m.threads[3]? = some (.ioUse 8 (some 0)) ∧
      0 ∈ m.shared.unmapped ∧ ∃ x ∈ tr, Driver.UnmapsUnder 3 8 0 x := by
  obtain ⟨tr, m, hr, -, hobs⟩ := follow_run Driver.step (fun _ _ => true) .init unmappedUnderIo
    (fun m => m.threads[3]? = some (.ioUse 8 (some 0)) && m.shared.unmapped = [0]) (by decide +kernel)
  simp only [Bool.and_eq_true, decide_eq_true_eq] at hobs
  obtain ⟨hk, hun⟩ := hobs
  have hmem : 0 ∈ m.shared.unmapped := by simp [hun]
  exact ⟨tr, m, hr, hk, hmem, (io_handle_unmapped hr hk).2.mp hmem⟩

/-! ## The test before the lock -/

namespace Point

variable {p : Point}

/-- Between the test of `initialized` and the end of the section in which `default_ctrl` is set. -/
def registering : Point → Bool
  | .handleInit | .handleBuild _ | .handleLock _ | .handleDefault _ => true
  | .leave p => p.registering
  | _ => false

/-- A buffer is being added. -/
def adding : Point → Bool
  | .regMap .. | .regStore .. => true
  | .leave p => p.adding
  | _ => false

/-- Buffers are added under the lock. -/
theorem locked_of_adding (h : p.adding = true) : p.locked = true := by
  cases p with
  | regMap _ _ | regStore _ _ | leave _ => rfl
  | _ => exact absurd h Bool.false_ne_true

end Point

/-- The driver is closed at this step. -/
def Driver.Closes (x : Driver × Driver.Move) : Prop :=
  ∃ j ok, x.2 = .step j ok ∧ x.1.threads[j]? = some (.closeUnmap [])

namespace Driver

variable {m m' : Driver} {tr : List (Driver × Driver.Move)}

/-- When the driver is not open, there is nothing in it, and nobody puts anything in. -/
structure Shut (m : Driver) : Prop where
  registry : m.shared.bufRegistry = []
  default : m.shared.defaultCtrl = none
  quiet : ∀ p ∈ m.threads, p.registering = false ∧ p.adding = false

theorem shut_step_call (h : m.shared.initialized = false → Shut m) {k : DriverCall} {s : DriverState}
    {p : Point} (hs : k.start m.shared = some (s, p)) (hi : s.initialized = false) :
    Shut ⟨s, m.lock, m.threads ++ [p]⟩ := by
  obtain ⟨-, hsame⟩ := DriverCall.start_same hs
  have hshut := h (hsame.initialized ▸ hi)
  have hp : p.registering = false ∧ p.adding = false := by
    cases k with
    | handleDeregister ctrl =>
      simp only [DriverCall.start] at hs
      split_ifs at hs
      cases hs
      exact ⟨rfl, rfl⟩
    | _ =>
      cases hs
      exact ⟨rfl, rfl⟩
  refine ⟨by rw [← hshut.registry]; exact hsame.bufRegistry,
    by rw [← hshut.default]; exact hsame.defaultCtrl, ?_⟩
  exact List.forall_mem_append.mpr ⟨hshut.quiet, List.forall_mem_singleton.mpr hp⟩

theorem Shut.set (h : Shut m) {j : Nat} {q : Point} {s : DriverState} {lock : Option Nat}
    (hr : s.bufRegistry = []) (hd : s.defaultCtrl = none)
    (hq : q.registering = false ∧ q.adding = false) : Shut ⟨s, lock, m.threads.set j q⟩ := by
  refine ⟨hr, hd, fun r hr => ?_⟩
  rcases List.mem_or_eq_of_mem_set hr with hr | rfl
  · exact h.quiet r hr
  · exact hq

/-- Closing. Nobody else is in a section under the lock. -/
theorem shut_closed (hinv : Inv m) {j : Nat} {s : DriverState} {lock : Option Nat} {e : OpError}
    (hp : m.threads[j]? = some (.closeUnmap [])) (hr : s.bufRegistry = []) (hd : s.defaultCtrl = none)
    (hquiet : ∀ r ∈ m.threads, r.registering = false) :
    Shut ⟨s, lock, m.threads.set j (.leave (.status e))⟩ := by
  refine ⟨hr, hd, fun r hr => ?_⟩
  obtain ⟨k, hk⟩ := List.mem_iff_getElem?.mp hr
  rcases Monitor.threads_set hk with ⟨-, rfl⟩ | ⟨hkj, hk⟩
  · exact ⟨rfl, rfl⟩
  · refine ⟨hquiet r (List.mem_of_getElem? hk), ?_⟩
    by_contra hadd
    have hlocked := Point.locked_of_adding (Bool.eq_true_of_not_eq_false hadd)
    exact hkj (hinv.guards.exclusive.unique hk hp hlocked rfl)

theorem shut_step_next (hinv : Inv m) (h : m.shared.initialized = false → Shut m) {j : Nat} {ok : Bool}
    {p q : Point} {s : DriverState} {lock : Option Nat} (hp : m.threads[j]? = some p)
    (hclose : Closes (m, .step j ok) → ∀ r ∈ m.threads, r.registering = false)
    (ht : Point.Takes m.shared p s q) (hi : s.initialized = false) :
    Shut ⟨s, lock, m.threads.set j q⟩ := by
  have hmem := List.mem_of_getElem? hp
  cases ht with
  | closeClear => exact shut_closed hinv hp rfl rfl (hclose ⟨j, ok, rfl, hp⟩)
  | openSet => cases hi
  | handleTest hopen => exact absurd (hi.symm.trans hopen) Bool.false_ne_true
  | regFind _ hc =>
    rw [(h hi).default] at hc
    cases hc
  | regMap | regFailed | regStore => exact absurd ((h hi).quiet _ hmem).2.symm Bool.false_ne_true
  | handleInit | handleFailed | handleBuild | handleUndone | handleLock | handleDefault =>
    exact absurd ((h hi).quiet _ hmem).1.symm Bool.false_ne_true
  | deregErase =>
    have hshut := h hi
    refine hshut.set ?_ hshut.default ⟨rfl, rfl⟩
    rw [hshut.registry]
    rfl
  | dropDefault =>
    have hshut := h hi
    refine hshut.set hshut.registry ?_ ⟨rfl, rfl⟩
    rw [hshut.default]
    split <;> rfl
  | leave =>
    obtain ⟨hreg, hadd⟩ := (h hi).quiet _ hmem
    exact (h hi).set (h hi).registry (h hi).default ⟨hreg, hadd⟩
  | _ => exact (h hi).set (h hi).registry (h hi).default ⟨rfl, rfl⟩

theorem run_shut (hr : Run Driver.step .init tr m)
    (hc : ∀ x ∈ tr, Closes x → ∀ p ∈ x.1.threads, p.registering = false) :
    m.shared.initialized = false → Shut m := by
  refine (Run.inv (fun m => Inv m ∧ (m.shared.initialized = false → Shut m))
    (fun m l => Closes (m, l) → ∀ p ∈ m.threads, p.registering = false)
    (fun m l m' h hg hs => ⟨h.1.step hs, ?_⟩) hr ⟨.init, fun _ => ⟨rfl, rfl, ?_⟩⟩ hc).1.2
  · intro hi
    cases l with
    | call k =>
      obtain ⟨s, p, hstart, rfl⟩ := Monitor.step_call hs
      exact shut_step_call h.2 hstart hi
    | step j ok =>
      obtain ⟨p, s, q, lock, hp, hn, -, rfl⟩ := Monitor.step_next hs
      exact shut_step_next h.1 h.2 hp hg (Point.takes_of_next hn) hi
  · simp [Driver.init, Monitor.init]

end Driver

/-- The driver is closed while a handle and a buffer are being registered. -/
def closedUnderRegister : List Driver.Move :=
  [.call .driverOpen, .step 0 true, .step 0 true, .step 0 true,
    .call (.handleRegister false true), .step 1 true, .step 1 true, .step 1 true,
    .call (.bufRegister 8 1), .step 2 true,
    .call .driverClose, .step 3 true, .step 3 true, .step 3 true, .step 3 true,
    .step 1 true, .step 1 true, .step 1 true, .step 1 true,
    .step 2 true, .step 2 true, .step 2 true, .step 2 true, .step 2 true]

/-- If no registration of a handle has passed its test when the driver is closed, a driver that is
not open has neither buffers nor a default controller. Otherwise a buffer can be registered after the
driver was closed: every call has returned, the driver is not open, and the buffer is mapped. -/
theorem closed_driver_empty :
    (∀ tr m, Run Driver.step .init tr m →
        (∀ x ∈ tr, Driver.Closes x → ∀ p ∈ x.1.threads, p.registering = false) →
        m.shared.initialized = false →
        m.shared.bufRegistry = [] ∧ m.shared.defaultCtrl = none) ∧
      ∃ tr m, Run Driver.step .init tr m ∧ m.threads = [.status .SUCCESS, .status .SUCCESS,
        .status .SUCCESS, .status .SUCCESS] ∧ m.shared.initialized = false ∧
        m.shared.bufRegistry = [⟨8, 0⟩] ∧ m.shared.unmapped = [] := by
  refine ⟨fun tr m hr hc hi => ?_, ?_⟩
  · have hshut := Driver.run_shut hr hc hi
    exact ⟨hshut.registry, hshut.default⟩
  · obtain ⟨tr, m, hr, -, hobs⟩ := follow_run Driver.step (fun _ _ => true) .init closedUnderRegister
      (fun m => m.threads = [.status .SUCCESS, .status .SUCCESS, .status .SUCCESS, .status .SUCCESS] &&
        m.shared.initialized = false && m.shared.bufRegistry = [⟨8, 0⟩] && m.shared.unmapped = [])
      (by decide +kernel)
    simp only [Bool.and_eq_true, decide_eq_true_eq] at hobs
    exact ⟨tr, m, hr, hobs.1.1.1, hobs.1.1.2, hobs.1.2, hobs.2⟩

/-- A handle and a buffer are registered before the driver is closed. -/
theorem closed_driver_empty_after :
    ∃ tr m, Run Driver.step .init tr m ∧ m.shared.made = [8] ∧ m.shared.initialized = false ∧
      m.shared.bufRegistry = [] := by
  obtain ⟨tr, m, hr, hgood, hobs⟩ := follow_run Driver.step
    (fun m l => match l with
      | .step j _ => m.threads[j]? ≠ some (.closeUnmap []) || m.threads.all fun p => !p.registering
      | .call _ => true) .init racingCalls
    (fun m => m.shared.made = [8] && m.shared.initialized = false) (by decide +kernel)
  simp only [Bool.and_eq_true, decide_eq_true_eq] at hobs
  refine ⟨tr, m, hr, hobs.1, hobs.2, (closed_driver_empty.1 tr m hr ?_ hobs.2).1⟩
  intro x hx hcl p hp
  obtain ⟨j, ok, hmove, hpoint⟩ := hcl
  have hg := hgood x hx
  rw [hmove] at hg
  simp only [hpoint, ne_eq, not_true_eq_false, decide_false, Bool.false_or] at hg
  simpa using List.all_eq_true.mp hg p hp

end UGDS
