import ProkaKernel.ScheduleSteps
import Mathlib.Data.List.Nodup

namespace ProkaKernel

/-- The queues list exactly the present processes, each once, and
`CURRENT_ID` names a slot of the tables. -/
structure Mirrors (s : Sched) : Prop where
  nodup : ∀ typ, (s.queue typ).Nodup
  mem : ∀ typ i, i ∈ s.queue typ ↔ i < maxPs ∧ (s.slot typ i).present = true
  current : s.currentId < maxPs

theorem ProcType.eq_or_other (typ typ' : ProcType) : typ' = typ ∨ typ' = typ.other := by
  cases typ <;> cases typ' <;> simp [ProcType.other]

theorem mirrors_boot : Mirrors {} where
  nodup typ := by cases typ <;> exact List.nodup_nil
  mem typ i := by cases typ <;> simp [Sched.queue, Sched.slot, NormalProcess.slot, DriverProcess.slot]
  current := by decide

theorem Mirrors.created {s s' : Sched} {typ : ProcType} {id frame : Nat} (mirrors : Mirrors s)
    (created : Created s s' typ id frame) : Mirrors s' := by
  have absent : id ∉ s.queue typ := by
    intro member
    have present := ((mirrors.mem typ id).mp member).2
    rw [created.free] at present
    cases present
  refine ⟨fun typ' => ?_, fun typ' i => ?_, created.currentId ▸ mirrors.current⟩
  · rcases typ.eq_or_other typ' with rfl | rfl
    · rw [created.queue]
      exact List.nodup_append.mpr ⟨mirrors.nodup typ', List.nodup_singleton id,
        fun a inOld b new => by rw [List.mem_singleton.mp new]; exact fun same => absent (same ▸ inOld)⟩
    · rw [created.otherQueue]
      exact mirrors.nodup _
  · by_cases here : typ' = typ ∧ i = id
    · obtain ⟨rfl, rfl⟩ := here
      rw [created.queue, created.slot]
      exact iff_of_true (List.mem_append_right _ (List.mem_singleton_self i)) ⟨created.bound, rfl⟩
    · rw [created.others typ' i here, ← mirrors.mem typ' i]
      rcases typ.eq_or_other typ' with rfl | rfl
      · have apart : i ≠ id := fun same => here ⟨rfl, same⟩
        rw [created.queue, List.mem_append, List.mem_singleton]
        exact or_iff_left apart
      · rw [created.otherQueue]

theorem Mirrors.removed {s s' : Sched} {typ : ProcType} {id : Nat} (mirrors : Mirrors s)
    (removed : Removed s s' typ id) : Mirrors s' := by
  refine ⟨fun typ' => ?_, fun typ' i => ?_, removed.currentId ▸ mirrors.current⟩
  · rcases typ.eq_or_other typ' with rfl | rfl
    · rw [removed.queue]
      exact (mirrors.nodup typ').filter _
    · rw [removed.otherQueue]
      exact mirrors.nodup _
  · by_cases here : typ' = typ ∧ i = id
    · obtain ⟨rfl, rfl⟩ := here
      rw [removed.queue, removed.slot]
      simp
    · rw [removed.others typ' i here, ← mirrors.mem typ' i]
      rcases typ.eq_or_other typ' with rfl | rfl
      · have apart : i ≠ id := fun same => here ⟨rfl, same⟩
        simp only [removed.queue, List.mem_filter, bne_iff_ne, ne_eq, apart, not_false_eq_true, and_true]
      · rw [removed.otherQueue]

/-- A removal leaves a process only as present as it was, and its tables alone. -/
theorem Removed.slot_kept {s s' : Sched} {typ : ProcType} {id : Nat} (removed : Removed s s' typ id)
    (typ' : ProcType) (j : Nat) : (s'.slot typ' j).resumeTable = (s.slot typ' j).resumeTable ∧
      (s'.slot typ' j).tableAddr = (s.slot typ' j).tableAddr ∧
      ((s'.slot typ' j).present = true → (s.slot typ' j).present = true) := by
  by_cases here : typ' = typ ∧ j = id
  · obtain ⟨rfl, rfl⟩ := here
    rw [removed.slot]
    exact ⟨rfl, rfl, fun _ => removed.present⟩
  · rw [removed.others _ _ here]
    exact ⟨rfl, rfl, fun present => present⟩

theorem Mirrors.stays {s s' : Sched} (mirrors : Mirrors s) (stays : Stays s s') : Mirrors s' where
  nodup typ := by rw [stays.queues]; exact mirrors.nodup typ
  mem typ i := by rw [stays.queues, stays.slots]; exact mirrors.mem typ i
  current := stays.currentId ▸ mirrors.current

theorem Switched.slot_present {s s' : Sched} {trap : Trap} {id : Nat} (switched : Switched s s' trap id)
    (typ : ProcType) (j : Nat) : (s'.slot typ j).present = (s.slot typ j).present := by
  rw [switched.slots]
  split <;> rfl

theorem Switched.slot_tableAddr {s s' : Sched} {trap : Trap} {id : Nat} (switched : Switched s s' trap id)
    (typ : ProcType) (j : Nat) : (s'.slot typ j).tableAddr = (s.slot typ j).tableAddr := by
  rw [switched.slots]
  split <;> rfl

/-- Rotating a queue only reorders it. -/
theorem Switched.queue_perm {s s' : Sched} {trap : Trap} {id : Nat} (switched : Switched s s' trap id)
    (typ : ProcType) : (s'.queue typ).Perm (s.queue typ) := by
  rcases s.next.eq_or_other typ with rfl | rfl
  · obtain ⟨rest, before, after⟩ := switched.head
    rw [before, after]
    exact List.perm_append_singleton id rest
  · rw [switched.otherQueue]

theorem Mirrors.switched {s s' : Sched} {trap : Trap} {id : Nat} (mirrors : Mirrors s)
    (switched : Switched s s' trap id) : Mirrors s' where
  nodup typ := (switched.queue_perm typ).nodup_iff.mpr (mirrors.nodup typ)
  mem typ i := by
    rw [(switched.queue_perm typ).mem_iff, switched.slot_present]
    exact mirrors.mem typ i
  current := by rw [switched.currentId]; exact switched.bound

theorem Mirrors.not_blocked {s s' : Sched} {trap : Trap} (mirrors : Mirrors s) : ¬Blocked s s' trap := by
  rintro ⟨⟨id, rest, queue, absent⟩, _⟩
  exact absent ((mirrors.mem s.next id).mp (by rw [queue]; exact List.mem_cons_self ..))

/-- In a state whose queues mirror the tables a tick has only three outcomes. -/
theorem Mirrors.switchTask_cases {s : Sched} (mirrors : Mirrors s) (trap : Trap) :
    (Idles s ∧ switchTask s trap = .returned s kernelPml4) ∨
    (∃ s', Stays s s' ∧ switchTask s trap = .returned s'
      (if (s.slot s.next.other s.currentId).tableAddr = 0 then kernelPml4
        else (s.slot s.next.other s.currentId).tableAddr)) ∨
    (∃ s' id, Switched s s' trap id ∧ switchTask s trap =
      .loaded s' (s.slot s.next id).context (s.slot s.next id).resumeTable) := by
  rcases ProkaKernel.switchTask_cases s trap with idles | ⟨bound, _⟩ | stays | ⟨_, blocked, _⟩ | switched
  · exact Or.inl idles
  · have current := mirrors.current
    omega
  · exact Or.inr (Or.inl stays)
  · exact absurd blocked mirrors.not_blocked
  · exact Or.inr (Or.inr switched)

theorem Mirrors.step {s s' : Sched} {event : Event} (mirrors : Mirrors s)
    (run : step s event = some s') : Mirrors s' := by
  cases event with
  | createNormal frame priority =>
    obtain ⟨id, created⟩ := createNormal_created run
    exact mirrors.created created
  | createDriver frame =>
    obtain ⟨id, created⟩ := createDriver_created run
    exact mirrors.created created
  | remove typ index =>
    simp only [ProkaKernel.step] at run
    split at run
    · rename_i after removal
      cases run
      exact mirrors.removed (remove_removed removal)
    · cases run
      exact mirrors
  | tick regs cr3 =>
    simp only [ProkaKernel.step] at run
    rcases mirrors.switchTask_cases (.interrupting regs cr3) with
      ⟨_, out⟩ | ⟨after, stays, out⟩ | ⟨after, id, switched, out⟩
    · rw [out] at run
      cases run
      exact mirrors
    · rw [out] at run
      cases run
      exact mirrors.stays stays
    · rw [out] at run
      cases run
      exact mirrors.switched switched

theorem SchedReach.mirrors {s : Sched} (reach : SchedReach s) : Mirrors s := by
  induction reach with
  | boot => exact mirrors_boot
  | next _ run ih => exact ih.step run

/-- `to_driver` and `to_normal` are called only on a non-empty queue and
succeed: the head of the queue is present, and the save before the call does
not change that. -/
theorem Mirrors.pick_ok {s saved : Sched} {trap : Trap} (mirrors : Mirrors s)
    (picks : prepare s trap s.next = .picks saved) :
    saved.queue s.next ≠ [] ∧ ∃ s' context table, pick saved s.next = .ok s' context table := by
  cases queue : s.queue s.next with
  | nil => simp [prepare, mirrors.current, queue] at picks
  | cons id rest =>
    have busy : s.queue s.next ≠ [] := by rw [queue]; exact List.cons_ne_nil _ _
    rw [prepare_picks mirrors.current busy] at picks
    cases picks
    obtain ⟨bound, present⟩ := (mirrors.mem s.next id).mp (by rw [queue]; exact List.mem_cons_self ..)
    refine ⟨by rw [s.saved_queue]; exact busy, ?_⟩
    simp only [pick, s.saved_queue, queue, bound, if_true, s.saved_slot_next, present]
    exact ⟨_, _, _, rfl⟩

/-- The calls of `to_driver` and `to_normal` that a tick makes in state `s`. -/
def PicksSucceed (s : Sched) : Prop :=
  ∀ trap saved,
    (s.isDriver = true → prepare s trap .driver = .picks saved →
      saved.driverQueue ≠ [] ∧ ∃ s' context table, toDriver saved = .ok s' context table) ∧
    (s.isDriver = false → prepare s trap .normal = .picks saved →
      saved.normalQueue ≠ [] ∧ ∃ s' context table, toNormal saved = .ok s' context table)

theorem Mirrors.picksSucceed {s : Sched} (mirrors : Mirrors s) : PicksSucceed s := by
  intro trap saved
  constructor
  · intro driver picks
    have turn : s.next = .driver := by simp only [Sched.next, driver, if_true]
    have ok := mirrors.pick_ok (turn ▸ picks)
    rw [turn] at ok
    exact ok
  · intro normal picks
    have turn : s.next = .normal := by simp only [Sched.next, normal, Bool.false_eq_true, if_false]
    have ok := mirrors.pick_ok (turn ▸ picks)
    rw [turn] at ok
    exact ok

/-- Every table entry is the same in both states, up to the presence flag. -/
def SameRecords (s s' : Sched) : Prop :=
  (∀ i, { s'.normalProcess i with present := (s.normalProcess i).present } = s.normalProcess i) ∧
    ∀ i, { s'.driverProcess i with present := (s.driverProcess i).present } = s.driverProcess i

theorem remove_sameRecords {s s' : Sched} {typ : ProcType} {index : Nat} (run : remove s typ index = .ok s') :
    SameRecords s s' := by
  cases typ with
  | normal =>
    simp only [remove, removeNormal] at run
    split at run
    · cases run
    split at run
    · cases run
      refine ⟨fun i => ?_, fun i => rfl⟩
      simp only [Function.update_apply]
      split
      · rename_i here
        rw [here]
        rfl
      · rfl
    · cases run
  | driver =>
    simp only [remove, removeDriver] at run
    split at run
    · cases run
    split at run
    · cases run
      refine ⟨fun i => rfl, fun i => ?_⟩
      simp only [Function.update_apply]
      split
      · rename_i here
        rw [here]
        rfl
      · rfl
    · cases run

/-- In every run the queues list exactly the present slots, a refused removal
changes nothing, a removal changes one slot's presence and queue entry only,
and no tick calls `to_driver` or `to_normal` in vain. -/
theorem run_queues_mirror_tables {s : Sched} (reach : SchedReach s) :
    (∀ typ, (s.queue typ).Nodup ∧ (∀ i ∈ s.queue typ, i < maxPs) ∧
      ∀ i, i < maxPs → (i ∈ s.queue typ ↔ (s.slot typ i).present = true)) ∧
    (∀ typ index e, remove s typ index = .error e → step s (.remove typ index) = some s) ∧
    (∀ typ index s', remove s typ index = .ok s' → Removed s s' typ index ∧ SameRecords s s') ∧
    PicksSucceed s := by
  have mirrors := reach.mirrors
  refine ⟨fun typ => ⟨mirrors.nodup typ, ?_, ?_⟩, ?_, ?_, mirrors.picksSucceed⟩
  · intro i member
    exact ((mirrors.mem typ i).mp member).1
  · intro i bound
    rw [mirrors.mem typ i]
    exact and_iff_right bound
  · intro typ index e refused
    simp only [step, refused]
  · intro typ index s' run
    exact ⟨remove_removed run, remove_sameRecords run⟩

/-- One process of each class and one tick. -/
theorem run_queues_mirror_tables_after_tick :
    ∃ s, run {} [.createNormal 0x2000000 0, .createDriver 0x2001000, .tick {} kernelPml4] = some s ∧
      s.queue .normal = [0] ∧ s.queue .driver = [0] ∧ s.isDriver = true ∧ PicksSucceed s := by
  have ran : ∃ s, run {} [.createNormal 0x2000000 0, .createDriver 0x2001000, .tick {} kernelPml4] = some s ∧
      s.queue .normal = [0] ∧ s.queue .driver = [0] ∧ s.isDriver = true := ⟨_, rfl, rfl, rfl, rfl⟩
  obtain ⟨s, ran, normal, driver, turn⟩ := ran
  exact ⟨s, ran, normal, driver, turn, (run_queues_mirror_tables (SchedReach.boot.run ran)).2.2.2⟩

/-- The CR3 with which a tick that switches to no task leaves: the kernel's, or
the table of the slot of the other class that `CURRENT_ID` names. -/
def Sched.leftTable (s : Sched) : Nat :=
  if s.queue s.next.other = [] ∨ (s.slot s.next.other s.currentId).tableAddr = 0 then kernelPml4
  else (s.slot s.next.other s.currentId).tableAddr

/-- A tick returns to the interrupted code just when the class whose turn it is
has no task. -/
theorem Mirrors.returned_iff {s : Sched} (mirrors : Mirrors s) (trap : Trap) (cr3 : Nat) :
    (∃ s', switchTask s trap = .returned s' cr3) ↔ s.queue s.next = [] ∧ cr3 = s.leftTable := by
  unfold Sched.leftTable
  rcases mirrors.switchTask_cases trap with ⟨idles, out⟩ | ⟨after, stays, out⟩ | ⟨after, id, switched, out⟩
  · rw [out, and_iff_right (idles.queue _), if_pos (Or.inl (idles.queue _))]
    constructor
    · rintro ⟨_, ⟨⟩⟩
      rfl
    · rintro rfl
      exact ⟨s, rfl⟩
  · have table : (s.queue s.next.other = [] ∨ (s.slot s.next.other s.currentId).tableAddr = 0) ↔
        (s.slot s.next.other s.currentId).tableAddr = 0 := or_iff_right stays.work
    rw [out, and_iff_right stays.empty, if_congr table rfl rfl]
    constructor
    · rintro ⟨_, ⟨⟩⟩
      rfl
    · rintro rfl
      exact ⟨after, rfl⟩
  · rw [out]
    constructor
    · rintro ⟨_, ⟨⟩⟩
    · rintro ⟨empty, _⟩
      obtain ⟨rest, queue, _⟩ := switched.head
      rw [queue] at empty
      cases empty

/-- A tick that switches to no task restores CR3 just when CR3 was what it
leaves anyway: the interrupted CR3 is never put back. -/
theorem address_space_restored_iff {s : Sched} (reach : SchedReach s) (trap : Trap) :
    (∀ s' cr3, switchTask s trap = .returned s' cr3 → cr3 = trap.cr3) ↔
      s.queue s.next ≠ [] ∨
      (s.queue s.next.other = [] ∨ (s.slot s.next.other s.currentId).tableAddr = 0) ∧ trap.cr3 = kernelPml4 ∨
      s.queue s.next.other ≠ [] ∧ (s.slot s.next.other s.currentId).tableAddr ≠ 0 ∧
        trap.cr3 = (s.slot s.next.other s.currentId).tableAddr := by
  have restored : (∀ s' cr3, switchTask s trap = .returned s' cr3 → cr3 = trap.cr3) ↔
      s.queue s.next ≠ [] ∨ trap.cr3 = s.leftTable := by
    constructor
    · intro restores
      by_cases empty : s.queue s.next = []
      · obtain ⟨s', out⟩ := (reach.mirrors.returned_iff trap _).mpr ⟨empty, rfl⟩
        exact Or.inr (restores s' _ out).symm
      · exact Or.inl empty
    · intro leaves s' cr3 out
      obtain ⟨empty, left⟩ := (reach.mirrors.returned_iff trap cr3).mp ⟨s', out⟩
      rcases leaves with busy | same
      · exact absurd empty busy
      · exact left.trans same.symm
  rw [restored, Sched.leftTable]
  refine or_congr_right ?_
  split
  · rename_i kernel
    refine ⟨fun same => Or.inl ⟨kernel, same⟩, ?_⟩
    rintro (⟨_, same⟩ | ⟨work, table, _⟩)
    · exact same
    · exact absurd kernel (not_or.mpr ⟨work, table⟩)
  · rename_i own
    obtain ⟨work, table⟩ := not_or.mp own
    refine ⟨fun same => Or.inr ⟨work, table, same⟩, ?_⟩
    rintro (⟨kernel, _⟩ | ⟨_, _, same⟩)
    · exact absurd kernel own
    · exact same

/-- A process runs, and the only driver is removed before its turn: the process
is interrupted under its own table and keeps it. -/
theorem own_table_kept :
    ∃ s, run {} [.createNormal 0x2000000 0, .createDriver 0x2001000, .tick {} kernelPml4, .remove .driver 0] = some s ∧
      (∃ s', switchTask s (.interrupting {} 0x2000000) = .returned s' 0x2000000) ∧
      ∀ s' cr3, switchTask s (.interrupting {} 0x2000000) = .returned s' cr3 → cr3 = 0x2000000 := by
  have ran : ∃ s, run {} [.createNormal 0x2000000 0, .createDriver 0x2001000, .tick {} kernelPml4, .remove .driver 0] = some s ∧
      s.next = .driver ∧ s.queue .normal = [0] ∧ (s.slot .normal s.currentId).tableAddr = 0x2000000 ∧
        ∃ s', switchTask s (.interrupting {} 0x2000000) = .returned s' 0x2000000 := ⟨_, rfl, rfl, rfl, rfl, _, rfl⟩
  obtain ⟨s, ran, turn, queue, table, out⟩ := ran
  refine ⟨s, ran, out, (address_space_restored_iff (SchedReach.boot.run ran) (.interrupting {} 0x2000000)).mpr ?_⟩
  rw [turn, ProcType.other, queue, table]
  exact Or.inr (Or.inr ⟨List.cons_ne_nil _ _, by decide, rfl⟩)

/-- The same process, interrupted inside a system call, leaves the kernel's
table for its own. -/
theorem kernel_table_lost :
    ∃ s s', run {} [.createNormal 0x2000000 0, .createDriver 0x2001000, .tick {} kernelPml4, .remove .driver 0] = some s ∧
      switchTask s (.interrupting {} kernelPml4) = .returned s' 0x2000000 :=
  ⟨_, _, rfl, rfl⟩

end ProkaKernel
