import UGDS.Io.DoIo
import UGDS.Nvm.Admin
import UGDS.Nvm.Dma

/-!
# UGDS.Api.Session

What a call that talks to a controller works on (`Sess`): the admin queue pair, the controller's
table of I/O queues, the kernel's mappings, and a log.

The log records what the caller of the library cannot see but the memory's safety depends on: waits
that ran out, queue deletions that did not succeed, and every `nvm_dma_unmap` together with the
queue pairs and the table at that moment.

* `Unmap.Safe`: no command that the controller has not completed holds an address of the mapping,
  and the mapping is not the memory of a queue that the controller still has.
* `Leads`: a step that keeps the log safe as long as the log is clean; `note_leads`, `unmap_leads`,
  `delete_unmap_leads` and `create_unmap_leads` are the steps that a call is made of.
-/

namespace UGDS

open Nvm Lib Drv

/-! ## The log -/

/-- The I/O queue whose memory a mapping is. -/
inductive QueueMem where
  | sq (id : Nat)
  | cq (id : Nat)

/-- The address that the controller has for the queue. -/
def QueueMem.bound (tb : QTable) : QueueMem → Option (BitVec 64)
  | .sq id => tb.sqs id
  | .cq id => tb.cqs id

/-- A call of `nvm_dma_unmap`: the handle, the queue it is the memory of, and the queue pairs and
the controller's table at that moment. -/
structure Unmap where
  dma : NvmDma
  mem : Option QueueMem
  pairs : List Qp
  table : QTable

inductive Event where
  /-- A wait for a completion ran out. -/
  | timeout
  /-- A Delete Queue call returned something other than 0. -/
  | deleteFailed (r : Int)
  | unmap (u : Unmap)

/-- The address `a` occurs in a command that the controller has not completed: as a data pointer,
or in the list page that the data pointer refers to, as it was when the command was submitted. -/
def Nvm.Qp.InUse (qp : Qp) (a : BitVec 64) : Prop :=
  ∃ (k : Nat) (cmd : NvmCmd), qp.cmds[k]? = some cmd ∧ (∀ p ∈ qp.posted, p.seq ≠ k) ∧ a ≠ 0 ∧
    (a = cmd.prp1 ∨ a = cmd.prp2 ∨
      cmd.prp2 = qp.prpAddr ∧ ∃ list, qp.lists[k]? = some list ∧ ∃ j, a = list j)

/-- The base address of a queue in memory `dma`. -/
def Nvm.NvmDma.base (dma : NvmDma) : BitVec 64 := dma.ioaddrs.getD 0 0#64

def Unmap.Safe (u : Unmap) : Prop :=
  (∀ p ∈ u.pairs, ∀ a ∈ u.dma.ioaddrs, ¬ p.InUse a) ∧
    ∀ m, u.mem = some m → m.bound u.table ≠ some u.dma.base

def AllSafe (log : List Event) : Prop := ∀ u, Event.unmap u ∈ log → u.Safe

/-- No wait ran out and every deletion succeeded. -/
def Clean (log : List Event) : Prop := ∀ e ∈ log, ∃ u, e = .unmap u

theorem Clean.of_prefix {log log' : List Event} (h : log <+: log') (hc : Clean log') : Clean log :=
  fun e he => hc e (h.subset he)

/-- Nothing is in use on an idle pair: every command has been completed. -/
theorem Nvm.Qp.Idle.not_inUse {qp : Qp} (h : qp.Idle) (a : BitVec 64) : ¬ qp.InUse a := by
  rintro ⟨k, cmd, hk, hnot, -⟩
  obtain ⟨hn, -, hf⟩ := h.facts
  have hlt : k < qp.cmds.length := (List.getElem?_eq_some_iff.mp hk).1
  have hmem : k ∈ qp.posted.map Post.seq := by
    have hp := h.seqs
    rw [hf, List.map_nil, List.append_nil, hn] at hp
    exact hp.mem_iff.mpr (List.mem_range.mpr hlt)
  obtain ⟨p, hp, he⟩ := List.mem_map.mp hmem
  exact hnot p hp he

/-! ## Sessions -/

/-- Who calls: the controller's behaviour towards the handle's queues, the controller, the thread,
the kernel's page size, and the queue pairs of all other handles and of this one's I/O queues. -/
structure Ctx where
  dev : Device
  mapper : Mapper
  P : Nat
  others : List Qp

structure Sess where
  admin : Admin
  table : QTable
  k : KState
  log : List Event

namespace Sess

/-- After an admin call with result `r` that left the admin pair as `a`. -/
def note (s : Sess) (a : Admin) (r : Int) : Sess :=
  { s with
    admin := a
    table := s.table.after s.admin a
    log := if r = Errno.ETIME.code then s.log ++ [.timeout] else s.log }

/-- After a Delete Queue call. -/
def noteDelete (s : Sess) (a : Admin) (r : Int) : Sess :=
  let s := s.note a r
  if r ≠ 0 then { s with log := s.log ++ [.deleteFailed r] } else s

/-- `nvm_dma_unmap`. `last` says that no other handle refers to the mapping; the kernel is then
asked to release it. -/
def unmap (c : Ctx) (s : Sess) (dma : NvmDma) (mem : Option QueueMem) (last : Bool) : Sess :=
  { s with
    k := if last then (s.k.unmap c.mapper.current dma.vaddr).k else s.k
    log := s.log ++ [.unmap ⟨dma, mem, c.others ++ [s.admin.pair], s.table⟩] }

end Sess

/-- What a host mapping meets: allocations in the library, the kernel, and the copies between. -/
structure HostMapEnv where
  lib : DmaEnv
  host : HostEnv
  copyIn : Bool
  copyOut : Bool

/-- `nvm_dma_map_host`. -/
def Sess.mapHost (c : Ctx) (s : Sess) (env : HostMapEnv) (vaddr size : Nat) :
    Except Errno NvmDma × Sess :=
  let x := nvmDmaMapHost c.P s.k env.lib env.host env.copyIn env.copyOut c.mapper vaddr size
  (x.2, { s with k := x.1 })

/-! ## Safety of the log -/

/-- The queue pairs are idle and every release so far was safe. -/
structure Sess.Good (c : Ctx) (s : Sess) : Prop where
  idle : s.admin.pair.Idle
  others : ∀ p ∈ c.others, p.Idle
  safe : AllSafe s.log

/-- From `s` to `s'` the log grows, and if `pre` holds and the log is clean at the end then safety
is kept. -/
structure Leads (c : Ctx) (pre : Prop) (s s' : Sess) : Prop where
  log : s.log <+: s'.log
  good : pre → Clean s'.log → s.Good c → s'.Good c

section Leads

variable {s s' s'' : Sess} {c : Ctx} {pre pre' : Prop}

theorem Leads.refl (s : Sess) : Leads c pre s s := ⟨List.prefix_rfl, fun _ _ h => h⟩

/-- What the second step needs may rest on what the first one started from. -/
theorem Leads.bind (h : Leads c pre s s') (h' : Leads c pre' s' s'')
    (hp : pre → s.Good c → Clean s'.log → pre') : Leads c pre s s'' := by
  refine ⟨h.log.trans h'.log, fun h0 hc hg => ?_⟩
  have hc' : Clean s'.log := hc.of_prefix h'.log
  exact h'.good (hp h0 hg hc') hc (h.good h0 hc' hg)

theorem Leads.trans (h : Leads c pre s s') (h' : Leads c True s' s'') : Leads c pre s s'' :=
  h.bind h' fun _ _ _ => trivial

/-- A step that touches neither the admin pair nor the log. -/
theorem Leads.of_eq (ha : s'.admin = s.admin) (hl : s'.log = s.log) : Leads c pre s s' :=
  ⟨by rw [hl], fun _ _ hg => ⟨by rw [ha]; exact hg.idle, hg.others, by rw [hl]; exact hg.safe⟩⟩

theorem mapHost_same {env : HostMapEnv} {vaddr size : Nat} {r : Except Errno NvmDma}
    (h : s.mapHost c env vaddr size = (r, s')) :
    s'.admin = s.admin ∧ s'.table = s.table ∧ s'.log = s.log := by
  cases h
  exact ⟨rfl, rfl, rfl⟩

theorem not_clean_timeout {log : List Event} : ¬ Clean (log ++ [.timeout]) := by
  intro h
  obtain ⟨u, hu⟩ := h .timeout (by simp)
  cases hu

theorem not_clean_deleteFailed {log : List Event} {r : Int} :
    ¬ Clean (log ++ [.deleteFailed r]) := by
  intro h
  obtain ⟨u, hu⟩ := h (.deleteFailed r) (by simp)
  cases hu

/-- In a clean log an admin call has not timed out. -/
theorem note_clean {a : Admin} {r : Int} (h : Clean (s.note a r).log) :
    r ≠ Errno.ETIME.code ∧ (s.note a r).log = s.log := by
  by_cases hr : r = Errno.ETIME.code
  · simp only [Sess.note, if_pos hr] at h
    exact absurd h not_clean_timeout
  · exact ⟨hr, by simp [Sess.note, hr]⟩

theorem note_leads {a : Admin} {r : Int}
    (h : s.admin.pair.Idle → ∃ cmd, Called s.admin a cmd r) : Leads c pre s (s.note a r) := by
  refine ⟨?_, fun _ hc hg => ?_⟩
  · simp only [Sess.note]
    split
    · exact List.prefix_append _ _
    · exact List.prefix_rfl
  · obtain ⟨hr, hl⟩ := note_clean hc
    obtain ⟨cmd, hcall⟩ := h hg.idle
    exact ⟨hcall.idle hg.idle hr, hg.others, by rw [hl]; exact hg.safe⟩

theorem noteDelete_clean {a : Admin} {r : Int} (h : Clean (s.noteDelete a r).log) :
    r = 0 ∧ s.noteDelete a r = s.note a r := by
  by_cases hr : r = 0
  · exact ⟨hr, by simp [Sess.noteDelete, hr]⟩
  · simp only [Sess.noteDelete, ne_eq, hr, not_false_eq_true, if_true] at h
    exact absurd h not_clean_deleteFailed

theorem noteDelete_leads {a : Admin} {r : Int}
    (h : s.admin.pair.Idle → ∃ cmd, Called s.admin a cmd r) :
    Leads c pre s (s.noteDelete a r) := by
  have hn : Leads c pre s (s.note a r) := note_leads h
  refine ⟨?_, fun h0 hc hg => ?_⟩
  · simp only [Sess.noteDelete]
    split
    · exact hn.log.trans (List.prefix_append _ _)
    · exact hn.log
  · obtain ⟨-, he⟩ := noteDelete_clean hc
    rw [he] at hc ⊢
    exact hn.good h0 hc hg

/-- A release is safe when all pairs are idle and the queue is gone. -/
theorem unmap_leads {dma : NvmDma} {mem : Option QueueMem} {last : Bool} :
    Leads c (∀ m, mem = some m → m.bound s.table = none) s (s.unmap c dma mem last) := by
  refine ⟨List.prefix_append _ _, fun hm _ hg => ⟨hg.idle, hg.others, ?_⟩⟩
  intro u hu
  rcases List.mem_append.mp hu with hu | hu
  · exact hg.safe u hu
  · obtain rfl := Event.unmap.inj (List.mem_singleton.mp hu)
    refine ⟨fun p hp a _ => ?_, fun m he => ?_⟩
    · rcases List.mem_append.mp hp with hp | hp
      · exact (hg.others p hp).not_inUse a
      · rw [List.mem_singleton.mp hp]
        exact hg.idle.not_inUse a
    · rw [hm m he]
      simp

/-- Memory that is no queue's. -/
theorem unmap_plain_leads {dma : NvmDma} {last : Bool} :
    Leads c pre s (s.unmap c dma none last) :=
  (Leads.refl s).bind unmap_leads fun _ _ _ m hm => by cases hm

/-- A queue's memory is released after the queue's deletion. If the log is clean, the deletion has
succeeded. -/
theorem delete_unmap_leads {a : Admin} {r : Int} {cmd : NvmCmd} {dma : NvmDma} {m : QueueMem}
    (hcall : s.admin.pair.Idle → Called s.admin a cmd r)
    (hgone : ∀ tb : QTable, m.bound (tb.exec cmd) = none) :
    Leads c pre s ((s.noteDelete a r).unmap c dma (some m) true) := by
  refine (noteDelete_leads fun hi => ⟨cmd, hcall hi⟩).bind unmap_leads fun _ hg hc m' hm => ?_
  cases hm
  obtain ⟨hr, he⟩ := noteDelete_clean hc
  have htb := (hcall hg.idle).table s.table
  rw [if_pos hr] at htb
  rw [he]
  show m.bound (s.table.after s.admin a) = none
  rw [htb]
  exact hgone _

/-- Memory meant for a queue is released after the queue could not be created. -/
theorem create_unmap_leads {a : Admin} {r : Int} {dma : NvmDma} {m : QueueMem}
    (hcall : s.admin.pair.Idle → (∃ cmd, Called s.admin a cmd r) ∧ r ≠ 0) :
    Leads c (m.bound s.table = none) s ((s.note a r).unmap c dma (some m) true) := by
  refine (note_leads fun hi => (hcall hi).1).bind unmap_leads fun hfree hg _ m' hm => ?_
  cases hm
  obtain ⟨⟨cmd, hcm⟩, hr⟩ := hcall hg.idle
  show m.bound (s.table.after s.admin a) = none
  rw [hcm.table s.table, if_neg hr]
  exact hfree

end Leads

end UGDS
