import UGDS.Nvm.CtrlThreads

/-!
# UGDS.Nvm.MapThreads

The references to one mapping descriptor as several threads take them and give them back (`get_map`
and `put_map`, `dma.cpp`), cut into steps at every access to the descriptor. `nvm_dma_remap` takes a
reference, and gives it back when there is no memory for the handle; `nvm_dma_unmap` gives one back.
The callers' rules are those of `CtrlThreads`.

The address range is unmapped and released under the lock, by the thread that counts down to 0. But
unlike `_nvm_ctrl_put`, which remembers its `count`, `put_map` reads `va` again after it has left the
lock, to see whether to call `remove_map`. A call that was not the last one can find `NULL` there, or
memory that is freed: what it finds then is the argument of the step.

* `Late`: when the last call sets `va` to `NULL`, another one has left the lock and not read it yet.
* `Inv`: in which phase the descriptor is; `late` is the number of such calls.
* `map_refs_threads`: the range is released once in any case; the descriptor is freed once, and not
  touched any more, exactly when no call was late.
-/

namespace UGDS
namespace Nvm
namespace MapThreads

open Lib

/-- What is done with the address range and, without the lock, with the descriptor; `readVa` says
whether `NULL` was read. -/
inductive Ev where
  | unmapRange
  | release
  | readVa (null : Bool)
  | ctrlPut
  | free
  deriving DecidableEq, Repr

/-- Where a call stands. `removeMap` and `free` are the two steps of `remove_map`. -/
inductive Point where
  | getLock
  | getCount
  | getUnlock
  | putLock
  | putCount
  | putUnmap
  | putRelease
  | putUnlock
  | putRead
  | removeMap
  | free
  | done
  deriving DecidableEq, Repr

structure Shared where
  count : Nat
  /-- `va` is not `NULL`. -/
  va : Bool
  /-- `unmap` is not `NULL`. -/
  unmap : Bool
  held : Nat
  log : List Ev

def Shared.record (s : Shared) (e : Ev) : Shared := { s with log := s.log ++ [e] }

theorem Shared.count_record (s : Shared) (e x : Ev) :
    (s.record e).log.count x = s.log.count x + if e = x then 1 else 0 := by
  simp only [Shared.record, List.count_append, List.count_singleton, beq_iff_eq]

namespace Point

def locked : Point → Bool
  | .getCount | .getUnlock | .putCount | .putUnmap | .putRelease | .putUnlock => true
  | _ => false

/-- The step from a point. -/
def next (s : Shared) : Point → Bool → Option (Shared × Point)
  | .getLock, _ => some (s, .getCount)
  | .getCount, _ => some ({ s with count := u32 (s.count + 1) }, .getUnlock)
  | .getUnlock, _ => some ({ s with held := s.held + 1 }, .done)
  | .putLock, _ => some (s, .putCount)
  | .putCount, _ =>
    let count := u32 (s.count + (2 ^ 32 - 1))
    some ({ s with count := count }, if count = 0 then .putUnmap else .putUnlock)
  | .putUnmap, _ => some (if s.unmap then s.record .unmapRange else s, .putRelease)
  | .putRelease, _ => some ({ s.record .release with va := false }, .putUnlock)
  | .putUnlock, _ => some (s, .putRead)
  | .putRead, stale =>
    let null := if .free ∈ s.log then stale else !s.va
    some (s.record (.readVa null), if null then .removeMap else .done)
  | .removeMap, _ => some (s.record .ctrlPut, .free)
  | .free, _ => some (s.record .free, .done)
  | .done, _ => none

/-- Between the call of `get_map` and `++count`. -/
def getting : Point → Bool
  | .getLock | .getCount => true
  | _ => false

/-- The call has a reference that is counted. -/
def counted : Point → Bool
  | .getUnlock | .putLock | .putCount => true
  | _ => false

/-- A point of a descriptor that is in use. -/
def ordinary : Point → Bool
  | .putUnmap | .putRelease | .removeMap | .free => false
  | _ => true

/-- A point of a descriptor whose last call is unmapping the range. -/
def ending : Point → Bool
  | .putUnmap | .putRelease | .putRead | .done => true
  | _ => false

/-- A point of a descriptor without a range. -/
def ended : Point → Bool
  | .putUnlock | .putRead | .removeMap | .free | .done => true
  | _ => false

end Point

/-- Where a call begins. -/
def start (s : Shared) : RefCall → Option (Shared × Point)
  | .get => if s.held = 0 then none else some (s, .getLock)
  | .put => if s.held = 0 then none else some ({ s with held := s.held - 1 }, .putLock)

def program : Program Shared Point Bool RefCall where
  start := start
  next := Point.next
  locked := Point.locked

/-- A descriptor with one handle, made by `_nvm_dma_init` (`unmap`) or by `nvm_dma_map`. -/
def created (unmap : Bool) : Shared := ⟨1, true, unmap, 1, []⟩

abbrev State : Type := Monitor Shared Point

abbrev Move : Type := Monitor.Move Bool RefCall

def holding : Holding Shared Point := ⟨Shared.held, Point.counted, Point.getting⟩

/-- A thread sets `va` to `NULL` while another is about to read it. -/
def LateStep (x : State × Move) : Prop :=
  .putRead ∈ x.1.threads ∧
    match x.2 with
    | .call _ => False
    | .step j _ => x.1.threads[j]? = some .putRelease

def Late (tr : List (State × Move)) : Prop := ∃ x ∈ tr, LateStep x

def Ev.ofRange : Ev → Bool
  | .unmapRange | .release => true
  | _ => false

/-- What happens to the range. -/
def rangeEvs (unmap : Bool) : List Ev := if unmap then [.unmapRange, .release] else [.release]

/-- What is done to a descriptor that is freed. -/
def afterFree (log : List Ev) : List Ev := (log.dropWhile (· ≠ .free)).drop 1

/-! ## The invariant -/

/-- The last call has not come to `remove_map`. -/
def Early (log : List Ev) : Prop := ∀ e ∈ log, e = .readVa false ∨ e.ofRange = true

/-- The descriptor is in use. -/
structure Alive (unmap : Bool) (m : State) : Prop where
  refs : 0 < holding.refs m
  va : m.shared.va = true
  unmap : m.shared.unmap = unmap
  early : Early m.shared.log
  range : m.shared.log.filter Ev.ofRange = []
  ordinary : ∀ p ∈ m.threads, p.ordinary = true

/-- The last call unmaps and releases the range. -/
structure Ending (unmap : Bool) (m : State) : Prop where
  held : m.shared.held = 0
  va : m.shared.va = true
  early : Early m.shared.log
  ending : ∀ p ∈ m.threads, p.ending = true
  last : m.threads.count .putUnmap + m.threads.count .putRelease = 1
  atUnmap : .putUnmap ∈ m.threads → m.shared.unmap = unmap ∧ m.shared.log.filter Ev.ofRange = []
  atRelease : .putRelease ∈ m.threads → m.shared.log.filter Ev.ofRange ++ [.release] = rangeEvs unmap

/-- The range is released; `late` calls were about to read `va`. -/
structure Dead (unmap : Bool) (late : Nat) (m : State) : Prop where
  held : m.shared.held = 0
  va : m.shared.va = false
  range : m.shared.log.filter Ev.ofRange = rangeEvs unmap
  ended : ∀ p ∈ m.threads, p.ended = true
  reads : m.shared.log.count (.readVa true) =
    m.threads.count .removeMap + m.shared.log.count .ctrlPut
  puts : m.shared.log.count .ctrlPut = m.threads.count .free + m.shared.log.count .free
  sum : afterFree m.shared.log = [] →
    m.threads.count .putUnlock + m.threads.count .putRead + m.shared.log.count (.readVa true) =
      1 + late
  clean : late = 0 → afterFree m.shared.log = []

structure Inv (unmap : Bool) (tr : List (State × Move)) (m : State) : Prop where
  exclusive : Monitor.Exclusive program m
  count : m.shared.count = holding.refs m
  phase : (Alive unmap m ∨ Ending unmap m) ∧ ¬ Late tr ∨
    ∃ late, Dead unmap late m ∧ (late = 0 ↔ ¬ Late tr)

section Logs

variable {log : List Ev}

theorem Early.counts (h : Early log) : log.count (.readVa true) = 0 ∧ log.count .ctrlPut = 0 ∧
    log.count .free = 0 := by
  refine ⟨?_, ?_, ?_⟩ <;>
  · refine List.count_eq_zero.mpr fun hmem => ?_
    rcases h _ hmem with he | he <;> cases he

theorem Early.snoc (h : Early log) {e : Ev} (he : e = .readVa false ∨ e.ofRange = true) :
    Early (log ++ [e]) := by
  intro x hx
  rcases List.mem_append.mp hx with hx | hx
  · exact h x hx
  · rw [List.mem_singleton.mp hx]
    exact he

theorem afterFree_cons {x : Ev} (hx : x ≠ .free) (log : List Ev) :
    afterFree (x :: log) = afterFree log := by
  simp [afterFree, hx]

theorem afterFree_of_not_mem (h : .free ∉ log) : afterFree log = [] := by
  induction log with
  | nil => rfl
  | cons x log ih =>
    obtain ⟨hx, hlog⟩ := not_or.mp fun hor => h (List.mem_cons.mpr hor)
    rw [afterFree_cons (Ne.symm hx), ih hlog]

theorem afterFree_snoc (log : List Ev) (e : Ev) :
    afterFree (log ++ [e]) = if .free ∈ log then afterFree log ++ [e] else [] := by
  induction log with
  | nil =>
    by_cases he : e = .free
    · subst he
      rfl
    · exact afterFree_cons he []
  | cons x log ih =>
    by_cases hx : x = .free
    · subst hx
      simp [afterFree]
    · rw [List.cons_append, afterFree_cons hx, afterFree_cons hx, ih]
      simp [Ne.symm hx]

theorem afterFree_of_snoc {e : Ev} (h : afterFree (log ++ [e]) = []) :
    .free ∉ log ∧ afterFree log = [] := by
  rw [afterFree_snoc] at h
  split at h
  · exact absurd h (by simp)
  · rename_i hn
    exact ⟨hn, afterFree_of_not_mem hn⟩

end Logs

section Step

variable {unmap : Bool} {m : State} {s : Shared} {p q : Point} {lock : Option Nat}
  {tr : List (State × Move)}

/-- The last reference is counted down: everyone else is about to read `va`, or through. -/
theorem rest_read (h : Inv unmap tr m) (ha : Alive unmap m) (hk : holding.Kept m) {j : Nat}
    (hp : m.threads[j]? = some .putCount) (hone : holding.refs m = 1) (q : Point) :
    m.shared.held = 0 ∧ ∃ rest, (m.threads.set j q).Perm (q :: rest) ∧
      ∀ r ∈ rest, r = .putRead ∨ r = .done := by
  obtain ⟨hheld, rest, hnew, hrest⟩ := Holding.last h.exclusive hk hp rfl rfl hone q
  refine ⟨hheld, rest, hnew, fun r hr => ?_⟩
  obtain ⟨hmem, hcounted, hgetting, hlocked⟩ := hrest r hr
  have hord := ha.ordinary r hmem
  cases r with
  | getLock => cases hgetting
  | putLock => cases hcounted
  | getCount | getUnlock | putCount | putUnmap | putRelease | putUnlock => cases hlocked
  | removeMap | free => cases hord
  | putRead => exact .inl rfl
  | done => exact .inr rfl

theorem forall_set {j : Nat} {f : Point → Bool} (h : ∀ r ∈ m.threads, f r = true) (hq : f q = true) :
    ∀ r ∈ m.threads.set j q, f r = true := by
  intro r hr
  rcases List.mem_or_eq_of_mem_set hr with hr | rfl
  · exact h r hr
  · exact hq

/-- A step of a descriptor in use that leaves it so. -/
theorem Alive.keep {j : Nat} (ha : Alive unmap m) (hq : q.ordinary = true)
    (hlog : Early s.log ∧ s.log.filter Ev.ofRange = []) (hva : s.va = m.shared.va)
    (hunmap : s.unmap = m.shared.unmap)
    (hcount : s.count = holding.refs ⟨s, lock, m.threads.set j q⟩) (hpos : 0 < s.count) :
    s.count = holding.refs ⟨s, lock, m.threads.set j q⟩ ∧
      (Alive unmap ⟨s, lock, m.threads.set j q⟩ ∨ Ending unmap ⟨s, lock, m.threads.set j q⟩) :=
  ⟨hcount, .inl ⟨hcount ▸ hpos, hva.trans ha.va, hunmap.trans ha.unmap, hlog.1, hlog.2,
    forall_set ha.ordinary hq⟩⟩

/-- Reading `va` while it is not `NULL`. -/
theorem next_read {e : Bool} (hva : m.shared.va = true) (hearly : Early m.shared.log) :
    Point.putRead.next m.shared e = some (m.shared.record (.readVa false), .done) := by
  have hfree : Ev.free ∉ m.shared.log := List.count_eq_zero.mp hearly.counts.2.2
  simp only [Point.next, if_neg hfree, hva]
  rfl

/-- A step of a descriptor in use. -/
theorem Alive.step (lock : Option Nat) {j : Nat} {e : Bool} (h : Inv unmap tr m) (ha : Alive unmap m)
    (hk : holding.Kept m) (hroom : holding.refs m + 1 < 2 ^ 32) (hp : m.threads[j]? = some p)
    (hn : p.next m.shared e = some (s, q)) :
    s.count = holding.refs ⟨s, lock, m.threads.set j q⟩ ∧
      (Alive unmap ⟨s, lock, m.threads.set j q⟩ ∨ Ending unmap ⟨s, lock, m.threads.set j q⟩) := by
  have hrefs : holding.refs ⟨s, lock, m.threads.set j q⟩ + m.shared.held + p.counted.toNat =
    holding.refs m + s.held + q.counted.toNat := Holding.refs_set hp
  have hcount := h.count
  have hpos := ha.refs
  have hlog := And.intro ha.early ha.range
  have hord := ha.ordinary p (List.mem_of_getElem? hp)
  cases p with
  | getLock | putLock | putUnlock =>
    cases hn
    simp only [Point.counted, Bool.toNat_false, Bool.toNat_true] at hrefs
    exact ha.keep rfl hlog rfl rfl (by omega) (by omega)
  | getCount =>
    cases hn
    simp only [Point.counted, Bool.toNat_false, Bool.toNat_true] at hrefs
    have hcount' : u32 (m.shared.count + 1) = m.shared.count + 1 := Nat.mod_eq_of_lt (by omega)
    exact ha.keep rfl hlog rfl rfl (by simp only; omega) (by simp only; omega)
  | getUnlock =>
    cases hn
    simp only [Point.counted, Bool.toNat_false, Bool.toNat_true] at hrefs
    exact ha.keep rfl hlog rfl rfl (by simp only; omega) (by simp only; omega)
  | putCount =>
    have hcount' : u32 (m.shared.count + (2 ^ 32 - 1)) = m.shared.count - 1 := by
      unfold u32
      omega
    simp only [Point.next, hcount'] at hn
    cases hn
    by_cases hzero : m.shared.count - 1 = 0
    · obtain ⟨hheld, rest, hperm, hrest⟩ := rest_read h ha hk hp (by omega) .putUnmap
      simp only [if_pos hzero, Point.counted, Bool.toNat_false, Bool.toNat_true] at hrefs ⊢
      have hmem (r : Point) (hr : r ∈ m.threads.set j .putUnmap) :
          r = .putUnmap ∨ r = .putRead ∨ r = .done :=
        (List.mem_cons.mp (hperm.mem_iff.mp hr)).imp_right (hrest r)
      have hnone : Point.putUnmap ∉ rest := fun hr => by rcases hrest _ hr with h | h <;> cases h
      have hnone' : Point.putRelease ∉ rest := fun hr => by rcases hrest _ hr with h | h <;> cases h
      refine ⟨by omega, .inr ⟨hheld, ha.va, ha.early, fun r hr => ?_, ?_,
        fun _ => ⟨ha.unmap, ha.range⟩, fun hr => ?_⟩⟩
      · rcases hmem r hr with rfl | rfl | rfl <;> rfl
      · rw [hperm.count_eq, hperm.count_eq, List.count_cons_self, List.count_cons_of_ne (by decide),
          List.count_eq_zero.mpr hnone, List.count_eq_zero.mpr hnone']
      · rcases hmem _ hr with h | h | h <;> cases h
    · rw [if_neg hzero] at hrefs ⊢
      simp only [Point.counted, Bool.toNat_false, Bool.toNat_true] at hrefs
      exact ha.keep rfl hlog rfl rfl (by simp only; omega) (by simp only; omega)
  | putRead =>
    rw [next_read ha.va ha.early] at hn
    cases hn
    simp only [Point.counted, Bool.toNat_false] at hrefs
    refine ha.keep rfl ⟨ha.early.snoc (.inl rfl), ?_⟩ rfl rfl ?_ ?_
    · simp only [Shared.record, List.filter_append, ha.range]
      rfl
    · simp only [Shared.record] at hrefs ⊢
      omega
    · simp only [Shared.record]
      omega
  | putUnmap | putRelease | removeMap | free => cases hord
  | done => cases hn

/-- The other calls read `va` while the last one unmaps the range. -/
theorem Ending.read (lock : Option Nat) {j : Nat} (he : Ending unmap m)
    (hp : m.threads[j]? = some .putRead) :
    Ending unmap ⟨m.shared.record (.readVa false), lock, m.threads.set j .done⟩ := by
  have hsame : (m.shared.log ++ [Ev.readVa false]).filter Ev.ofRange =
      m.shared.log.filter Ev.ofRange := by
    rw [List.filter_append]
    exact List.append_nil _
  have hback {x : Point} (hx : x ≠ .done) (hmem : x ∈ m.threads.set j .done) : x ∈ m.threads :=
    (List.mem_or_eq_of_mem_set hmem).resolve_right hx
  have hu := Monitor.count_set hp .done .putUnmap
  have hr := Monitor.count_set hp .done .putRelease
  simp only [reduceCtorEq, reduceIte, Nat.add_zero] at hu hr
  refine ⟨he.held, he.va, he.early.snoc (.inl rfl), forall_set he.ending rfl, ?_, fun hmem => ?_,
    fun hmem => ?_⟩
  · rw [hu, hr]
    exact he.last
  · obtain ⟨hunmap, hfilter⟩ := he.atUnmap (hback (by decide) hmem)
    exact ⟨hunmap, hsame.trans hfilter⟩
  · exact (congrArg (· ++ [_]) hsame).trans (he.atRelease (hback (by decide) hmem))

theorem Ending.unmapRange (lock : Option Nat) {j : Nat} (he : Ending unmap m)
    (hp : m.threads[j]? = some .putUnmap) :
    Ending unmap ⟨if m.shared.unmap then m.shared.record .unmapRange else m.shared, lock,
      m.threads.set j .putRelease⟩ := by
  obtain ⟨hunmap, hfilter⟩ := he.atUnmap (List.mem_of_getElem? hp)
  have hu := Monitor.count_set hp .putRelease .putUnmap
  have hr := Monitor.count_set hp .putRelease .putRelease
  simp only [reduceCtorEq, reduceIte, Nat.add_zero] at hu hr
  have hlast := he.last
  have hnone : Point.putUnmap ∉ m.threads.set j .putRelease := List.count_eq_zero.mp (by omega)
  rw [hunmap]
  cases unmap with
  | true =>
    refine ⟨he.held, he.va, he.early.snoc (.inr rfl), forall_set he.ending rfl, by simp only; omega,
      fun hmem => absurd hmem hnone, fun _ => ?_⟩
    simp only [reduceIte, Shared.record, List.filter_append, hfilter]
    rfl
  | false =>
    refine ⟨he.held, he.va, he.early, forall_set he.ending rfl, by simp only; omega,
      fun hmem => absurd hmem hnone, fun _ => ?_⟩
    simp only [Bool.false_eq_true, reduceIte, hfilter]
    rfl

/-- The range is released. -/
theorem Ending.release (lock : Option Nat) {j : Nat} (he : Ending unmap m)
    (hp : m.threads[j]? = some .putRelease) :
    Dead unmap (m.threads.count .putRead)
      ⟨{ m.shared.record .release with va := false }, lock, m.threads.set j .putUnlock⟩ := by
  have hlast := he.last
  have hunmap := Monitor.count_set hp .putUnlock .putUnmap
  have hrelease := Monitor.count_set hp .putUnlock .putRelease
  have hunlock := Monitor.count_set hp .putUnlock .putUnlock
  have hread := Monitor.count_set hp .putUnlock .putRead
  have hremove := Monitor.count_set hp .putUnlock .removeMap
  have hfree := Monitor.count_set hp .putUnlock .free
  -- no thread has come further than the read yet
  have hzero {x : Point} (hx : x.ending = false) : m.threads.count x = 0 :=
    List.count_eq_zero.mpr fun hmem => absurd (he.ending x hmem) (by rw [hx]; decide)
  rw [hzero rfl] at hunlock hremove hfree
  simp only [reduceCtorEq, reduceIte, Nat.add_zero] at hunmap hrelease hunlock hread hremove hfree
  obtain ⟨hreads, hputs, hfrees⟩ := (he.early.snoc (e := .release) (.inr rfl)).counts
  refine ⟨he.held, rfl, ?_, fun r hmem => ?_, ?_, ?_, fun _ => ?_,
    fun _ => afterFree_of_not_mem (List.count_eq_zero.mp hfrees)⟩
  · simp only [Shared.record, List.filter_append]
    exact he.atRelease (List.mem_of_getElem? hp)
  · rcases List.mem_or_eq_of_mem_set hmem with hold | rfl
    · have hend := he.ending r hold
      cases r with
      | putUnmap => exact absurd hmem (List.count_eq_zero.mp (show _ = 0 by simp only; omega))
      | putRelease => exact absurd hmem (List.count_eq_zero.mp (show _ = 0 by simp only; omega))
      | putRead | done => rfl
      | getLock | getCount | getUnlock | putLock | putCount | putUnlock => cases hend
      | removeMap | free => cases hend
    · rfl
  · simp only [Shared.record]
    omega
  · simp only [Shared.record]
    omega
  · simp only [Shared.record]
    omega

/-- If no call was late then the last one, until it is through, has not freed the descriptor. -/
theorem Dead.not_freed {j : Nat} {late : Nat} (hd : Dead unmap late m) (hp : m.threads[j]? = some p)
    (hdone : p ≠ .done) (hlate : late = 0) : .free ∉ m.shared.log := by
  refine List.count_eq_zero.mp ?_
  have hsum := hd.sum (hd.clean hlate)
  have hreads := hd.reads
  have hputs := hd.puts
  have hmem := List.mem_of_getElem? hp
  have hpos := List.count_pos_iff.mpr hmem
  have hend := hd.ended p hmem
  cases p with
  | putUnlock | putRead | removeMap | free => omega
  | getLock | getCount | getUnlock | putLock | putCount | putUnmap | putRelease => cases hend
  | done => exact absurd rfl hdone

/-- A step after the range is released. -/
theorem Dead.step (lock : Option Nat) {j : Nat} {e : Bool} {late : Nat} (hd : Dead unmap late m)
    (hp : m.threads[j]? = some p) (hn : p.next m.shared e = some (s, q)) :
    s.count = m.shared.count ∧ Dead unmap late ⟨s, lock, m.threads.set j q⟩ := by
  have hend := hd.ended p (List.mem_of_getElem? hp)
  have hunlock := Monitor.count_set hp q .putUnlock
  have hread := Monitor.count_set hp q .putRead
  have hremove := Monitor.count_set hp q .removeMap
  have hfree := Monitor.count_set hp q .free
  have hreads := hd.reads
  have hputs := hd.puts
  have hrange (x : Ev) (hx : x.ofRange = false) :
      (m.shared.log ++ [x]).filter Ev.ofRange = rangeEvs unmap := by
    rw [List.filter_append, hd.range, List.filter_singleton, hx]
    exact List.append_nil _
  have hclean (x : Ev) (h : late = 0) : afterFree (m.shared.log ++ [x]) = [] := by
    rw [afterFree_snoc, if_neg (hd.not_freed hp (by rintro rfl; cases hn) h)]
  cases p with
  | putUnlock =>
    cases hn
    simp only [reduceCtorEq, reduceIte, Nat.add_zero] at hunlock hread hremove hfree
    refine ⟨rfl, hd.held, hd.va, hd.range, forall_set hd.ended rfl, by simp only; omega,
      by simp only; omega, fun hafter => ?_, hd.clean⟩
    have := hd.sum hafter
    simp only
    omega
  | putRead =>
    -- what is read matters only as long as the descriptor is not freed
    cases hnull : if .free ∈ m.shared.log then e else !m.shared.va with
    | true =>
      simp only [Point.next, hnull, reduceIte] at hn
      cases hn
      simp only [reduceCtorEq, reduceIte, Nat.add_zero] at hunlock hread hremove hfree
      refine ⟨rfl, hd.held, hd.va, hrange _ rfl, forall_set hd.ended rfl, ?_, ?_, fun hafter => ?_,
        hclean _⟩
      · simp only [Shared.count_record, reduceCtorEq, reduceIte]
        omega
      · simp only [Shared.count_record, reduceCtorEq, reduceIte]
        omega
      · have := hd.sum (afterFree_of_snoc hafter).2
        simp only [Shared.count_record, reduceIte]
        omega
    | false =>
      simp only [Point.next, hnull, Bool.false_eq_true, reduceIte] at hn
      cases hn
      simp only [reduceCtorEq, reduceIte, Nat.add_zero] at hunlock hread hremove hfree
      refine ⟨rfl, hd.held, hd.va, hrange _ rfl, forall_set hd.ended rfl, ?_, ?_, fun hafter => ?_,
        hclean _⟩
      · simp only [Shared.count_record, Ev.readVa.injEq, Bool.false_eq_true, reduceCtorEq, reduceIte]
        omega
      · simp only [Shared.count_record, reduceCtorEq, reduceIte]
        omega
      · rw [if_neg (afterFree_of_snoc hafter).1, hd.va] at hnull
        cases hnull
  | removeMap | free =>
    cases hn
    simp only [reduceCtorEq, reduceIte, Nat.add_zero] at hunlock hread hremove hfree
    refine ⟨rfl, hd.held, hd.va, hrange _ rfl, forall_set hd.ended rfl, ?_, ?_, fun hafter => ?_,
        hclean _⟩
    · simp only [Shared.count_record, reduceCtorEq, reduceIte]
      omega
    · simp only [Shared.count_record, reduceCtorEq, reduceIte]
      omega
    · have := hd.sum (afterFree_of_snoc hafter).2
      simp only [Shared.count_record, reduceCtorEq, reduceIte]
      omega
  | getLock | getCount | getUnlock | putLock | putCount | putUnmap | putRelease => cases hend
  | done => cases hn

theorem late_snoc {x : State × Move} : Late (tr ++ [x]) ↔ Late tr ∨ LateStep x := by
  constructor
  · rintro ⟨y, hy, hlate⟩
    rcases List.mem_append.mp hy with hy | hy
    · exact .inl ⟨y, hy, hlate⟩
    · exact .inr (List.mem_singleton.mp hy ▸ hlate)
  · rintro (⟨y, hy, hlate⟩ | hlate)
    · exact ⟨y, List.mem_append_left _ hy, hlate⟩
    · exact ⟨x, List.mem_append_right _ (List.mem_singleton.mpr rfl), hlate⟩

theorem late_keep {l : Move} (h : ¬ LateStep (m, l)) : Late (tr ++ [(m, l)]) ↔ Late tr :=
  late_snoc.trans ⟨fun hor => hor.resolve_right h, .inl⟩

theorem lateStep_iff {j : Nat} {e : Bool} (hp : m.threads[j]? = some p) :
    LateStep (m, .step j e) ↔ .putRead ∈ m.threads ∧ p = .putRelease := by
  simp only [LateStep, hp, Option.some.injEq]

theorem Ending.refs (h : Ending unmap m) : holding.refs m = 0 := by
  refine (Holding.refs_of_not_counted fun p hp => ?_).trans h.held
  have := h.ending p hp
  cases p <;> first | rfl | cases this

theorem Dead.refs {late : Nat} (h : Dead unmap late m) : holding.refs m = 0 := by
  refine (Holding.refs_of_not_counted fun p hp => ?_).trans h.held
  have := h.ended p hp
  cases p <;> first | rfl | cases this

/-- What a call that begins finds and leaves. -/
theorem start_ok {k : RefCall} (hs : start m.shared k = some (s, p)) :
    0 < m.shared.held ∧ s.held + p.counted.toNat = m.shared.held ∧ s.count = m.shared.count ∧
      s.log = m.shared.log ∧ s.va = m.shared.va ∧ s.unmap = m.shared.unmap ∧ p.ordinary = true ∧
      p.locked = false := by
  by_cases hzero : m.shared.held = 0
  · cases k <;> simp only [start, if_pos hzero] at hs <;> cases hs
  · have hpos := Nat.pos_of_ne_zero hzero
    cases k <;> simp only [start, if_neg hzero] at hs <;> cases hs
    · exact ⟨hpos, rfl, rfl, rfl, rfl, rfl, rfl, rfl⟩
    · exact ⟨hpos, Nat.sub_add_cancel hpos, rfl, rfl, rfl, rfl, rfl, rfl⟩

theorem Inv.step_call {k : RefCall} (h : Inv unmap tr m) (hs : start m.shared k = some (s, p)) :
    Inv unmap (tr ++ [(m, .call k)]) ⟨s, m.lock, m.threads ++ [p]⟩ := by
  obtain ⟨hpos, hheld, hcount, hlog, hva, hunmap, hord, hlocked⟩ := start_ok hs
  have hrefs : holding.refs ⟨s, m.lock, m.threads ++ [p]⟩ + m.shared.held =
    holding.refs m + s.held + p.counted.toNat := Holding.refs_append
  have hsame : holding.refs ⟨s, m.lock, m.threads ++ [p]⟩ = holding.refs m := by omega
  rcases h.phase with ⟨ha | he, hlate⟩ | ⟨late, hd, -⟩
  · refine ⟨h.exclusive.step_call hlocked, hcount.trans (h.count.trans hsame.symm),
      .inl ⟨.inl ?_, ?_⟩⟩
    · refine ⟨hsame ▸ ha.refs, hva.trans ha.va, hunmap.trans ha.unmap, ?_, ?_, fun r hr => ?_⟩
      · rw [hlog]
        exact ha.early
      · rw [hlog]
        exact ha.range
      · rcases List.mem_append.mp hr with hr | hr
        · exact ha.ordinary r hr
        · rw [List.mem_singleton.mp hr]
          exact hord
    · rwa [late_keep fun hlate => hlate.2]
  · exact absurd he.held hpos.ne'
  · exact absurd hd.held hpos.ne'

theorem Inv.step_next {j : Nat} {e : Bool} (h : Inv unmap tr m) (hk : holding.Kept m)
    (hroom : holding.refs m + 1 < 2 ^ 32) (hp : m.threads[j]? = some p)
    (hn : p.next m.shared e = some (s, q))
    (hl : Monitor.relock program m.lock j p q = some lock) :
    Inv unmap (tr ++ [(m, .step j e)]) ⟨s, lock, m.threads.set j q⟩ := by
  have hex := h.exclusive.step_next s hp hl
  have hmem := List.mem_of_getElem? hp
  have hstep := lateStep_iff (e := e) hp
  rcases h.phase with ⟨ha | he, hlate⟩ | ⟨late, hd, hlate⟩
  · obtain ⟨hcount, hphase⟩ := ha.step lock h hk hroom hp hn
    refine ⟨hex, hcount, .inl ⟨hphase, ?_⟩⟩
    rw [late_keep]
    · exact hlate
    · rw [hstep]
      rintro ⟨-, rfl⟩
      cases ha.ordinary _ hmem
  · have hzero : m.shared.count = 0 := h.count.trans he.refs
    have hend := he.ending p hmem
    cases p with
    | putUnmap =>
      cases hn
      have hnext := he.unmapRange lock hp
      refine ⟨hex, ?_, .inl ⟨.inr hnext, ?_⟩⟩
      · rw [hnext.refs, ← hzero]
        cases m.shared.unmap <;> rfl
      · rwa [late_keep fun hlate => by cases hstep.mp hlate |>.2]
    | putRead =>
      rw [next_read he.va he.early] at hn
      cases hn
      have hnext := he.read lock hp
      refine ⟨hex, hzero.trans hnext.refs.symm, .inl ⟨.inr hnext, ?_⟩⟩
      rwa [late_keep fun hlate => by cases hstep.mp hlate |>.2]
    | putRelease =>
      cases hn
      have hnext := he.release lock hp
      refine ⟨hex, hzero.trans hnext.refs.symm, .inr ⟨_, hnext, ?_⟩⟩
      rw [late_snoc, hstep, List.count_eq_zero]
      exact ⟨fun hr hor => hor.elim hlate fun h => hr h.1, fun hn hr => hn (.inr ⟨hr, rfl⟩)⟩
    | done => cases hn
    | getLock | getCount | getUnlock | putLock | putCount | putUnlock | removeMap | free => cases hend
  · obtain ⟨hcount, hdead⟩ := hd.step lock hp hn
    refine ⟨hex, hcount.trans (h.count.trans (hd.refs.trans hdead.refs.symm)), .inr ⟨late, hdead, ?_⟩⟩
    rw [late_keep]
    · exact hlate
    · rw [hstep]
      rintro ⟨-, rfl⟩
      cases hd.ended _ hmem

theorem Inv.step {l : Move} {m' : State} (h : Inv unmap tr m) (hk : holding.Kept m)
    (hroom : holding.refs m + 1 < 2 ^ 32) (hs : m.step program l = some m') :
    Inv unmap (tr ++ [(m, l)]) m' := by
  cases l with
  | call k =>
    obtain ⟨s, p, hstart, rfl⟩ := Monitor.step_call hs
    exact h.step_call hstart
  | step j e =>
    obtain ⟨p, s, q, lock, hp, hn, hl, rfl⟩ := Monitor.step_next hs
    exact h.step_next hk hroom hp hn hl

theorem Inv.created (unmap : Bool) : Inv unmap [] (.init (created unmap)) := by
  refine ⟨⟨by simp [Monitor.init], by simp [Monitor.init]⟩, rfl, .inl ⟨.inl ?_, ?_⟩⟩
  · exact ⟨Nat.one_pos, rfl, rfl, List.forall_mem_nil _, rfl, by simp [Monitor.init]⟩
  · rintro ⟨x, hx, -⟩
    cases hx

theorem run_inv (hr : Run (Monitor.step program) (.init (created unmap)) tr m)
    (hkept : ∀ x ∈ tr, holding.Kept x.1 ∧ holding.refs x.1 + 1 < 2 ^ 32) : Inv unmap tr m := by
  refine Run.inv_trace
    (fun tr m => (∀ x ∈ tr, holding.Kept x.1 ∧ holding.refs x.1 + 1 < 2 ^ 32) → Inv unmap tr m)
    (fun tr m l m' h hs hkept => ?_) hr (fun _ => .created unmap) hkept
  obtain ⟨hk, hroom⟩ := hkept (m, l) (List.mem_append_right _ (List.mem_singleton.mpr rfl))
  exact (h fun x hx => hkept x (List.mem_append_left _ hx)).step hk hroom hs

end Step

/-! ## What the phases say -/

section Phases

variable {unmap : Bool} {m : State}

theorem count_of_done (h : ∀ p ∈ m.threads, p = .done) {x : Point} (hx : x ≠ .done) :
    m.threads.count x = 0 :=
  List.count_eq_zero.mpr fun hmem => hx (h x hmem)

/-- The descriptor as it should be left: the controller is given back at most once, nothing is done to
the descriptor after it was freed, and then no thread has anything to do with it. -/
def Unharmed (m : State) : Prop :=
  m.shared.log.count .ctrlPut ≤ 1 ∧ afterFree m.shared.log = [] ∧
    (.free ∈ m.shared.log → ∀ p ∈ m.threads, p = .done)

theorem Early.unharmed (h : Early m.shared.log) : Unharmed m := by
  obtain ⟨-, hputs, hfrees⟩ := h.counts
  have hfree := List.count_eq_zero.mp hfrees
  exact ⟨by omega, afterFree_of_not_mem hfree, fun hmem => absurd hmem hfree⟩

theorem Dead.unharmed (hd : Dead unmap 0 m) : Unharmed m := by
  have hclean := hd.clean rfl
  have hsum := hd.sum hclean
  have hreads := hd.reads
  refine ⟨by omega, hclean, fun hmem p hp => ?_⟩
  obtain ⟨j, hj⟩ := List.mem_iff_getElem?.mp hp
  by_contra hne
  exact hd.not_freed hj hne rfl hmem

theorem Alive.not_finished (ha : Alive unmap m) (hdone : ∀ p ∈ m.threads, p = .done) :
    m.shared.held ≠ 0 := by
  have hrefs : holding.refs m = m.shared.held :=
    Holding.refs_of_not_counted fun p hp => by rw [hdone p hp]; rfl
  exact hrefs ▸ ha.refs.ne'

theorem Ending.not_finished (he : Ending unmap m) : ¬ ∀ p ∈ m.threads, p = .done := by
  intro hdone
  have hlast := he.last
  rw [count_of_done hdone (by decide), count_of_done hdone (by decide)] at hlast
  cases hlast

theorem Ending.range (he : Ending unmap m) : m.shared.log.filter Ev.ofRange <+: rangeEvs unmap := by
  by_cases hmem : .putUnmap ∈ m.threads
  · rw [(he.atUnmap hmem).2]
    exact List.nil_prefix
  · have hlast := he.last
    rw [List.count_eq_zero.mpr hmem] at hlast
    have hrel : .putRelease ∈ m.threads := List.count_pos_iff.mp (by omega)
    exact ⟨_, he.atRelease hrel⟩

/-- When all calls have returned, every read of `NULL` has led to a `remove_map`. -/
theorem Dead.finished {late : Nat} (hd : Dead unmap late m) (hdone : ∀ p ∈ m.threads, p = .done) :
    m.shared.log.count .free = m.shared.log.count .ctrlPut ∧
      (afterFree m.shared.log = [] → m.shared.log.count .ctrlPut = 1 + late) := by
  have hreads := hd.reads
  have hputs := hd.puts
  have hunlock := count_of_done (x := .putUnlock) hdone (by decide)
  have hread := count_of_done (x := .putRead) hdone (by decide)
  have hremove := count_of_done (x := .removeMap) hdone (by decide)
  have hfree := count_of_done (x := .free) hdone (by decide)
  refine ⟨by omega, fun hafter => ?_⟩
  have hsum := hd.sum hafter
  omega

end Phases

/-- References to a mapping descriptor, taken and given back by any threads in any interleaving. The
range is unmapped and released once, when there are no references. When no call is late, the
controller is given back once, the descriptor is freed once after that and no thread has anything to
do with it any more. When a call was late, then in the end the controller was given back more than
once or the descriptor was used after it was freed. -/
theorem map_refs_threads {unmap : Bool} {tr : List (State × Move)} {m : State}
    (hr : Run (Monitor.step program) (.init (created unmap)) tr m)
    (hkept : ∀ x ∈ tr, holding.Kept x.1 ∧ holding.refs x.1 + 1 < 2 ^ 32) :
    Monitor.Exclusive program m ∧ m.shared.count = holding.refs m ∧
      (m.shared.log.filter Ev.ofRange ≠ [] → holding.refs m = 0) ∧
      m.shared.log.filter Ev.ofRange <+: rangeEvs unmap ∧
      (¬ Late tr → m.shared.log.count .ctrlPut ≤ 1 ∧ afterFree m.shared.log = [] ∧
        (.free ∈ m.shared.log → ∀ p ∈ m.threads, p = .done)) ∧
      ((∀ p ∈ m.threads, p = .done) → m.shared.held = 0 →
        m.shared.log.filter Ev.ofRange = rangeEvs unmap ∧
        (¬ Late tr → m.shared.log.count .ctrlPut = 1 ∧ m.shared.log.count .free = 1 ∧
          afterFree m.shared.log = []) ∧
        (Late tr → 1 < m.shared.log.count .ctrlPut ∨ afterFree m.shared.log ≠ [])) := by
  have hinv := run_inv hr hkept
  refine ⟨hinv.exclusive, hinv.count, ?_⟩
  rcases hinv.phase with ⟨ha | he, -⟩ | ⟨late, hd, hlate⟩
  · refine ⟨fun hne => absurd ha.range hne, ?_, fun _ => ha.early.unharmed,
      fun hdone hheld => absurd hheld (ha.not_finished hdone)⟩
    rw [ha.range]
    exact List.nil_prefix
  · exact ⟨fun _ => he.refs, he.range, fun _ => he.early.unharmed,
      fun hdone => absurd hdone he.not_finished⟩
  · refine ⟨fun _ => hd.refs, hd.range ▸ List.prefix_rfl, fun hnot => ?_,
      fun hdone _ => ⟨hd.range, fun hnot => ?_, fun hyes => ?_⟩⟩
    · obtain rfl := hlate.mpr hnot
      exact hd.unharmed
    · obtain rfl := hlate.mpr hnot
      obtain ⟨hfrees, hputs⟩ := hd.finished hdone
      have hone := hputs (hd.clean rfl)
      exact ⟨hone, hfrees.trans hone, hd.clean rfl⟩
    · have hpos : late ≠ 0 := fun h => hlate.mp h hyes
      by_cases hafter : afterFree m.shared.log = []
      · have hputs := (hd.finished hdone).2 hafter
        exact .inl (by omega)
      · exact .inr hafter

/-- A handle is made of another one; then both are unmapped at a time. The first call is not the last
one but reads `va` after the second has set it to `NULL`. -/
def twoUnmaps : List Move :=
  [.call .get, .step 0 false, .step 0 false, .step 0 false, .call .put, .call .put, .step 1 false,
    .step 1 false, .step 1 false, .step 2 false, .step 2 false, .step 2 false, .step 2 false,
    .step 2 false, .step 1 false, .step 2 false, .step 1 false, .step 2 false, .step 1 false,
    .step 2 false]

/-- The controller is given back twice, and the descriptor is freed twice. -/
theorem map_refs_threads_late :
    ∃ tr m, Run (Monitor.step program) (.init (created true)) tr m ∧ tr.map Prod.snd = twoUnmaps ∧
      m.shared.log = [.unmapRange, .release, .readVa true, .readVa true, .ctrlPut, .ctrlPut, .free,
        .free] ∧ Late tr := by
  obtain ⟨tr, m, hr, htr, hg, hp⟩ := follow_trace (Monitor.step program)
    (fun m _ => decide (holding.Kept m ∧ holding.refs m + 1 < 2 ^ 32)) (.init (created true))
    twoUnmaps (fun m => decide ((m.shared.held = 0 ∧ ∀ p ∈ m.threads, p = .done) ∧ m.shared.log =
      [.unmapRange, .release, .readVa true, .readVa true, .ctrlPut, .ctrlPut, .free, .free]))
    (by decide +kernel)
  obtain ⟨⟨hheld, hdone⟩, hlog⟩ := of_decide_eq_true hp
  obtain ⟨-, -, -, -, -, hend⟩ := map_refs_threads hr fun x hx => of_decide_eq_true (hg x hx)
  refine ⟨tr, m, hr, htr, hlog, ?_⟩
  by_contra hnot
  have hone := ((hend hdone hheld).2.1 hnot).1
  rw [hlog] at hone
  revert hone
  decide

end MapThreads
end Nvm
end UGDS
