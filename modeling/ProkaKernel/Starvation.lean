import ProkaKernel.RoundRobin
import ProkaKernel.SchedulerRefinement

namespace ProkaKernel

/-- The ticks that a queued process still has to wait through: two for every
process in front of it, and one if the other class has the turn. -/
def Sched.wait (s : Sched) (typ : ProcType) (id : Nat) : Nat :=
  2 * (s.queue typ).idxOf id + if s.next = typ then 0 else 1

/-- Taking other items out of a queue moves no item back. -/
theorem idxOf_filter_le {queue : List Nat} {test : Nat → Bool} {id : Nat} (kept : test id = true) :
    (queue.filter test).idxOf id ≤ queue.idxOf id := by
  induction queue with
  | nil => exact Nat.le_refl _
  | cons head rest ih =>
    by_cases passes : test head = true
    · rw [List.filter_cons_of_pos passes, List.idxOf_cons, List.idxOf_cons]
      cases head == id with
      | true => exact Nat.le_refl _
      | false => exact Nat.succ_le_succ ih
    · rw [List.filter_cons_of_neg passes, List.idxOf_cons]
      have other : (head == id) = false := by
        rw [beq_eq_false_iff_ne]
        rintro rfl
        exact passes kept
      rw [other, cond_false]
      exact Nat.le_succ_of_le ih

section
variable {s s' : Sched} {typ : ProcType} {id : Nat}

theorem Created.wait {typ' : ProcType} {id' frame : Nat} (created : Created s s' typ' id' frame)
    (queued : id ∈ s.queue typ) : id ∈ s'.queue typ ∧ s'.wait typ id = s.wait typ id := by
  unfold Sched.wait
  rw [created.next]
  rcases typ'.eq_or_other typ with rfl | rfl
  · rw [created.queue, List.idxOf_append_of_mem queued]
    exact ⟨List.mem_append_left _ queued, rfl⟩
  · rw [created.otherQueue]
    exact ⟨queued, rfl⟩

theorem Removed.wait {typ' : ProcType} {id' : Nat} (removed : Removed s s' typ' id') (queued : id ∈ s.queue typ)
    (other : ¬(typ' = typ ∧ id' = id)) : id ∈ s'.queue typ ∧ s'.wait typ id ≤ s.wait typ id := by
  unfold Sched.wait
  rw [removed.next]
  rcases typ'.eq_or_other typ with rfl | rfl
  · have kept : (id != id') = true := bne_iff_ne.mpr fun same => other ⟨rfl, same.symm⟩
    have place := @idxOf_filter_le (s.queue typ) (fun item => item != id') id kept
    rw [removed.queue]
    exact ⟨List.mem_filter.mpr ⟨queued, kept⟩, by omega⟩
  · rw [removed.otherQueue]
    exact ⟨queued, Nat.le_refl _⟩

/-- Every tick loads the process or takes one off its waiting time. -/
theorem Mirrors.tick_wait {trap : Trap} {out : Option Turn} (mirrors : Mirrors s) (queued : id ∈ s.queue typ)
    (run : ProkaKernel.tick s trap = some (out, s')) :
    out = some ⟨typ, id⟩ ∨ id ∈ s'.queue typ ∧ s'.wait typ id + 1 ≤ s.wait typ id := by
  have busy : s.queue typ ≠ [] := List.ne_nil_of_mem queued
  unfold Sched.wait
  rcases mirrors.tick_cases trap with ⟨idles, _⟩ | ⟨after, stays, same⟩ | ⟨after, head, switched, same⟩
  · exact absurd (idles.queue typ) busy
  · cases run.symm.trans same
    have turn : s.next = typ.other := (typ.eq_or_other s.next).resolve_left fun here => busy (here ▸ stays.empty)
    rw [stays.queues, stays.next, turn, ProcType.other_other, if_pos rfl, if_neg typ.other_ne]
    exact Or.inr ⟨queued, Nat.le_refl _⟩
  · cases run.symm.trans same
    rcases s.next.eq_or_other typ with rfl | rfl
    · obtain ⟨rest, before, rotated⟩ := switched.head
      by_cases first : head = id
      · exact Or.inl (by rw [first])
      · rw [before] at queued
        have later : id ∈ rest := (List.mem_cons.mp queued).resolve_left fun same => first same.symm
        rw [before, rotated, List.idxOf_append_of_mem later, List.idxOf_cons_ne rest first, if_pos rfl]
        refine Or.inr ⟨List.mem_append_left _ later, ?_⟩
        split <;> omega
    · rw [switched.otherQueue, switched.next, if_neg busy, if_pos rfl, if_neg s.next.other_ne.symm]
      exact Or.inr ⟨queued, Nat.le_refl _⟩

theorem tick_of_step {regs : Context} {cr3 : Nat} (run : step s (.tick regs cr3) = some s') :
    ∃ out, tick s (.interrupting regs cr3) = some (out, s') := by
  simp only [step] at run
  cases out : switchTask s (.interrupting regs cr3) with
  | panicked => rw [out] at run; cases run
  | returned s1 => rw [out] at run; cases run; exact ⟨none, by rw [tick, out]⟩
  | loaded s1 => rw [out] at run; cases run; exact ⟨_, by rw [tick, out]⟩

theorem Mirrors.of_forgetHeaps (mirrors : Mirrors s) (same : s'.forgetHeaps = s.forgetHeaps) : Mirrors s' := by
  have queue (typ : ProcType) : s'.queue typ = s.queue typ := by
    rw [← s'.forgetHeaps_queue, same, s.forgetHeaps_queue]
  have present (typ : ProcType) (i : Nat) : (s'.slot typ i).present = (s.slot typ i).present := by
    have slots : (s'.forgetHeaps.slot typ i).present = (s.forgetHeaps.slot typ i).present := by rw [same]
    rw [s'.forgetHeaps_slot, s.forgetHeaps_slot] at slots
    exact slots
  have current : s'.forgetHeaps.currentId = s.forgetHeaps.currentId := congrArg Sched.currentId same
  refine ⟨fun typ => ?_, fun typ i => ?_, ?_⟩
  · rw [queue]
    exact mirrors.nodup typ
  · rw [queue, present]
    exact mirrors.mem typ i
  · exact lt_of_eq_of_lt current mirrors.current

theorem Sched.wait_of_forgetHeaps (same : s'.forgetHeaps = s.forgetHeaps) (typ : ProcType) (id : Nat) :
    s'.queue typ = s.queue typ ∧ s'.wait typ id = s.wait typ id := by
  have queue : s'.queue typ = s.queue typ := by rw [← s'.forgetHeaps_queue, same, s.forgetHeaps_queue]
  have next : s'.forgetHeaps.next = s.forgetHeaps.next := congrArg Sched.next same
  unfold wait
  rw [queue, show s'.next = s.next from next]
  exact ⟨rfl, rfl⟩

end

def KernelEvent.isTick : KernelEvent → Bool
  | .tick _ _ => true
  | _ => false

namespace Kernel

/-- The task that an event loads: that of a tick that loads one. -/
def loads (k : Kernel) : KernelEvent → Option Turn
  | .tick regs cr3 => (tick k.sched (.interrupting regs cr3)).bind Prod.fst
  | _ => none

section
variable (mapper : PageMapper) (parse : List UInt8 → Option Image)

/-- A run from a state on, with its events and the tasks that they load. -/
inductive Run : Kernel → Set Nat → List (KernelEvent × Option Turn) → Kernel → Prop
  | done {k tables} : Run k tables [] k
  | next {k k' k'' tables event log} : event.By tables → k.step mapper parse event = some k' →
      Run k' (tables ∪ k'.tables) log k'' → Run k tables ((event, k.loads event) :: log) k''

variable {R : Set Nat} {k k' : Kernel} {tables : Set Nat} {event : KernelEvent} {typ : ProcType} {id : Nat}

/-- What an event does to a process that waits. -/
theorem Valid.step_wait (valid : k.Valid R) (known : ∀ t ∈ tables, ∃ r ∈ R, t = r * 4096) (mirrors : Mirrors k.sched)
    (queued : id ∈ k.sched.queue typ) (other : event ≠ .remove typ id) (caller : event.By tables)
    (run : k.step mapper parse event = some k') :
    (∃ R', Goes R R' k k') ∧ Mirrors k'.sched ∧ (k.loads event = some ⟨typ, id⟩ ∨
      id ∈ k'.sched.queue typ ∧ k'.sched.wait typ id + (if event.isTick then 1 else 0) ≤ k.sched.wait typ id) := by
  obtain ⟨R', goes, ⟨same, quiet⟩ | ⟨event', enacts, _, stepped⟩⟩ := valid.step_enacts mapper parse known caller run
  · obtain ⟨queue, wait⟩ := Sched.wait_of_forgetHeaps same typ id
    refine ⟨⟨R', goes⟩, mirrors.of_forgetHeaps same, Or.inr ⟨queue ▸ queued, ?_⟩⟩
    cases event with
    | tick regs cr3 => exact absurd rfl (quiet regs cr3)
    | _ => exact Nat.le_of_eq wait
  · refine ⟨⟨R', goes⟩, mirrors.step stepped, ?_⟩
    cases event' with
    | createNormal frame priority =>
      obtain ⟨_, created⟩ := createNormal_created stepped
      obtain ⟨still, wait⟩ := created.wait queued
      cases event with
      | create => exact Or.inr ⟨still, Nat.le_of_eq wait⟩
      | _ => exact enacts.elim
    | createDriver frame =>
      obtain ⟨_, created⟩ := createDriver_created stepped
      obtain ⟨still, wait⟩ := created.wait queued
      cases event with
      | create => exact Or.inr ⟨still, Nat.le_of_eq wait⟩
      | _ => exact enacts.elim
    | remove typ' index =>
      cases event with
      | remove =>
        obtain ⟨rfl, rfl⟩ := enacts
        simp only [ProkaKernel.step] at stepped
        split at stepped
        · rename_i removal
          cases stepped
          obtain ⟨still, wait⟩ := (remove_removed removal).wait queued (by rintro ⟨rfl, rfl⟩; exact other rfl)
          exact Or.inr ⟨still, wait⟩
        · obtain same := Option.some.inj stepped
          rw [← same]
          exact Or.inr ⟨queued, Nat.le_refl _⟩
      | _ => exact enacts.elim
    | tick regs cr3 =>
      cases event with
      | tick =>
        obtain ⟨rfl, rfl⟩ := enacts
        obtain ⟨out, ticked⟩ := tick_of_step stepped
        refine (mirrors.tick_wait queued ticked).imp_left fun loaded => ?_
        simp only [loads, ticked, Option.bind_some, loaded]
      | _ => exact enacts.elim

theorem Run.loaded {log : List (KernelEvent × Option Turn)} (run : Run mapper parse k tables log k')
    (valid : k.Valid R) (known : ∀ t ∈ tables, ∃ r ∈ R, t = r * 4096) (mirrors : Mirrors k.sched)
    (queued : id ∈ k.sched.queue typ) (kept : ∀ entry ∈ log, entry.1 ≠ .remove typ id)
    (ticks : k.sched.wait typ id < log.countP fun entry => entry.1.isTick) : ∃ entry ∈ log, entry.2 = some ⟨typ, id⟩ := by
  induction run generalizing R with
  | done => exact absurd ticks (Nat.not_lt_zero _)
  | @next k k1 k2 tables event log caller step rest ih =>
    obtain ⟨⟨R', goes⟩, mirrors1, loaded | ⟨queued1, wait⟩⟩ := valid.step_wait mapper parse known mirrors queued
      (kept _ (List.mem_cons_self ..)) caller step
    · exact ⟨_, List.mem_cons_self .., loaded⟩
    · rw [List.countP_cons] at ticks
      change k1.sched.wait typ id + (if event.isTick then 1 else 0) ≤ _ at wait
      change k.sched.wait typ id < List.countP _ log + (if event.isTick then 1 else 0) at ticks
      obtain ⟨entry, member, loaded⟩ := ih goes.valid (goes.valid.known_tables goes.grows known) mirrors1 queued1
        (fun entry member => kept entry (List.mem_cons_of_mem _ member)) (by omega)
      exact ⟨entry, List.mem_cons_of_mem _ member, loaded⟩

end

/-- No present process starves: whatever happens between the ticks, one of the
first `2 * p + 2` ticks loads the process at place `p` of its queue, unless it
is removed. -/
theorem no_starvation (mapper : PageMapper) (parse : List UInt8 → Option Image) {map : MemoryMap} {start k k' : Kernel}
    {tables : Set Nat} {log : List (KernelEvent × Option Turn)} {typ : ProcType} {id : Nat} (boot : start.Boot map)
    (reach : Reach mapper parse start k tables) (bound : id < maxPs) (present : (k.sched.slot typ id).present = true)
    (run : Run mapper parse k tables log k') (kept : ∀ entry ∈ log, entry.1 ≠ .remove typ id)
    (ticks : 2 * (k.sched.queue typ).idxOf id + 2 ≤ log.countP fun entry => entry.1.isTick) :
    ∃ entry ∈ log, entry.2 = some ⟨typ, id⟩ := by
  obtain ⟨R, w, goes, known, world, refines⟩ := reach.refines mapper parse boot
  have mirrors : Mirrors k.sched := world.sound.mirrors.of_forgetHeaps (by rw [refines.sched]; rfl)
  refine run.loaded mapper parse goes.valid known mirrors ((mirrors.mem typ id).mpr ⟨bound, present⟩) kept ?_
  unfold Sched.wait
  split <;> omega

/-- Two ticks around the creation of a driver load the only process. -/
theorem no_starvation_one_process :
    ∃ k tables log k', Reach FourLevel.mapper flatParse smallKernel k tables ∧
      Run FourLevel.mapper flatParse k tables log k' ∧ log.length = 3 ∧ ∃ entry ∈ log, entry.2 = some ⟨.normal, 0⟩ := by
  have run : ((smallKernel.step FourLevel.mapper flatParse (.create [0x90] 0)).bind fun k1 =>
      (k1.step FourLevel.mapper flatParse (.tick {} kernelPml4)).bind fun k2 =>
      (k2.step FourLevel.mapper flatParse (.create [1, 0x90] 0)).bind fun k3 =>
      (k3.step FourLevel.mapper flatParse (.tick {} kernelPml4)).map fun _ =>
        ((k1.sched.slot .normal 0).present, k1.sched.normalQueue)) = some (true, [0]) := by
    decide +kernel
  obtain ⟨k1, first, run⟩ := Option.bind_eq_some_iff.mp run
  obtain ⟨k2, second, run⟩ := Option.bind_eq_some_iff.mp run
  obtain ⟨k3, third, run⟩ := Option.bind_eq_some_iff.mp run
  obtain ⟨k4, fourth, same⟩ := Option.map_eq_some_iff.mp run
  obtain ⟨present, queue⟩ := Prod.mk.inj same
  have reach := Reach.boot.next (by exact trivial) first
  have later : Run FourLevel.mapper flatParse k1 (∅ ∪ k1.tables) [_, _, _] k4 :=
    .next (by exact trivial) second (.next (by exact trivial) third (.next (by exact trivial) fourth .done))
  refine ⟨k1, _, _, k4, reach, later, rfl, no_starvation FourLevel.mapper flatParse smallKernel_boot reach
    (by decide : 0 < maxPs) present later ?_ ?_⟩
  · simp
  · rw [show k1.sched.queue .normal = [0] from queue]
    simp [KernelEvent.isTick]

end Kernel

end ProkaKernel
