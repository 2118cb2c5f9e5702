import ProkaKernel.TaskTables

namespace ProkaKernel

/-- The process that `pagefault` acts on when it finds this page table in CR3.
It searches the table of the class that `IS_DRIVER` names; `none` is the
panic of `expect`. -/
def pagefaultProcess (s : Sched) (pml4 : Nat) : Option (ProcType × Nat) :=
  if s.isDriver then
    (firstSlot fun i => pml4 == (s.driverProcess i).tableAddr).map fun index => (.driver, index)
  else
    (firstSlot fun i => pml4 == (s.normalProcess i).tableAddr || pml4 == (s.normalProcess i).currentTable).map
      fun index => (.normal, index)

theorem pagefaultProcess_eq (s : Sched) (pml4 : Nat) :
    pagefaultProcess s pml4 =
      (firstSlot fun i => pml4 == (s.slot s.next i).tableAddr || pml4 == (s.slot s.next i).resumeTable).map
        fun index => (s.next, index) := by
  cases turn : s.isDriver <;>
    simp [pagefaultProcess, Sched.next, turn, Sched.slot, NormalProcess.slot, DriverProcess.slot]

namespace World

/-- What a tick may find in CR3: the table that was last put in force, the
kernel's while a handler runs, or that of the running task, which a system
call that was interrupted puts back in force when it returns. -/
def InForce (w : World) (cr3 : Nat) : Prop :=
  cr3 = w.cr3 ∨ cr3 = kernelPml4 ∨ ∃ t, w.running = some t ∧ cr3 = w.table t

/-- Creations use fresh tables, and a tick finds in CR3 a table that is in force. -/
def Admits (w : World) (event : Event) : Prop :=
  w.FreshTables event ∧ ∀ regs cr3, event = .tick regs cr3 → w.InForce cr3

/-- The table of some task of this run, the kernel's, or none at all. -/
def Known (w : World) (table : Nat) : Prop :=
  table = 0 ∨ table = kernelPml4 ∨ ∃ t, t.birth < w.clock ∧ w.table t = table

theorem Fresh.not_known {w : World} {frame : Nat} (fresh : w.Fresh frame) : ¬w.Known frame := by
  rintro (zero | kernel | ⟨t, _, same⟩)
  · exact fresh.1 zero
  · exact fresh.2.1 kernel
  · exact fresh.2.2 t same

theorem Known.born {w : World} {table : Nat} (known : w.Known table) (s' : Sched) (typ : ProcType)
    (id frame : Nat) : (w.born s' typ id frame).Known table := by
  rcases known with zero | kernel | ⟨t, birth, same⟩
  · exact Or.inl zero
  · exact Or.inr (Or.inl kernel)
  · refine Or.inr (Or.inr ⟨t, Nat.lt_succ_of_lt birth, ?_⟩)
    have old : t ≠ ⟨typ, id, w.clock⟩ := fun new => Nat.lt_irrefl _ (new ▸ birth)
    simpa only [World.born, Function.update_of_ne old] using same

theorem Tables.tableAddr_known {w : World} (tables : w.Tables) (typ : ProcType) (id : Nat) :
    w.Known (w.sched.slot typ id).tableAddr := by
  by_cases zero : (w.sched.slot typ id).tableAddr = 0
  · exact Or.inl zero
  · have own := (tables.slots typ id).resolve_left zero
    exact Or.inr (Or.inr ⟨_, tables.counted _ (own ▸ zero), own.symm⟩)

theorem Tables.not_kernel {w : World} (tables : w.Tables) {typ : ProcType} {id : Nat}
    (present : (w.sched.slot typ id).present = true) : kernelPml4 ≠ (w.sched.slot typ id).tableAddr := by
  rw [tables.slot_present present]
  exact (tables.kernel _).symm

/-- The table of a present normal process is recorded as the current one in no
other normal slot, and it is in force only while `CURRENT_ID` names that slot. -/
structure OwnTables (w : World) : Prop where
  known : ∀ typ i, w.Known (w.sched.slot typ i).resumeTable
  inForce : w.Known w.cr3
  recorded : ∀ i j, (w.sched.slot .normal j).present = true →
    (w.sched.slot .normal i).resumeTable = (w.sched.slot .normal j).tableAddr → i = j
  current : ∀ j, (w.sched.slot .normal j).present = true →
    w.cr3 = (w.sched.slot .normal j).tableAddr → j = w.sched.currentId

theorem OwnTables.boot : OwnTables {} where
  known typ i := by cases typ <;> exact Or.inl rfl
  inForce := Or.inr (Or.inl rfl)
  recorded i j present := by simp [Sched.slot, NormalProcess.slot] at present
  current j present := by simp [Sched.slot, NormalProcess.slot] at present

theorem OwnTables.born {w : World} {s' : Sched} {typ : ProcType} {id frame : Nat} (own : w.OwnTables)
    (tables : w.Tables) (created : Created w.sched s' typ id frame) (fresh : w.Fresh frame) :
    (w.born s' typ id frame).OwnTables := by
  have new : (s'.slot typ id).resumeTable = frame ∧ (s'.slot typ id).tableAddr = frame := by
    rw [created.slot]
    exact ⟨rfl, rfl⟩
  refine ⟨fun typ' i => ?_, own.inForce.born .., fun i j present same => ?_, fun j present same => ?_⟩
  · change (w.born s' typ id frame).Known (s'.slot typ' i).resumeTable
    by_cases here : typ' = typ ∧ i = id
    · obtain ⟨rfl, rfl⟩ := here
      exact Or.inr (Or.inr ⟨⟨typ', i, w.clock⟩, Nat.lt_succ_self _, by
        simp only [World.born, Function.update_self, new.1]⟩)
    · rw [created.others _ _ here]
      exact (own.known typ' i).born ..
  · change (s'.slot .normal j).present = true at present
    change (s'.slot .normal i).resumeTable = (s'.slot .normal j).tableAddr at same
    by_cases first : ProcType.normal = typ ∧ i = id
    · obtain ⟨rfl, rfl⟩ := first
      by_contra apart
      rw [new.1, created.others _ _ (fun both => apart both.2.symm)] at same
      exact fresh.not_known (same ▸ tables.tableAddr_known _ _)
    · rw [created.others _ _ first] at same
      by_cases second : ProcType.normal = typ ∧ j = id
      · obtain ⟨rfl, rfl⟩ := second
        exact absurd (new.2 ▸ same ▸ own.known _ _) fresh.not_known
      · rw [created.others _ _ second] at same present
        exact own.recorded i j present same
  · change (s'.slot .normal j).present = true at present
    change w.cr3 = (s'.slot .normal j).tableAddr at same
    change j = s'.currentId
    by_cases here : ProcType.normal = typ ∧ j = id
    · obtain ⟨rfl, rfl⟩ := here
      exact absurd (new.2 ▸ same ▸ own.inForce) fresh.not_known
    · rw [created.others _ _ here] at same present
      exact (own.current j present same).trans created.currentId.symm

theorem OwnTables.known_inForce {w : World} {cr3 : Nat} (own : w.OwnTables) (sound : w.Sound) (machine : w.InForce cr3) :
    w.Known cr3 := by
  rcases machine with rfl | rfl | ⟨t, running, rfl⟩
  · exact own.inForce
  · exact Or.inr (Or.inl rfl)
  · exact Or.inr (Or.inr ⟨t, (sound.running t running).1, rfl⟩)

/-- If the table in force is that of a present normal process, `CURRENT_ID` names it. -/
theorem OwnTables.inForce_current {w : World} {cr3 j : Nat} (own : w.OwnTables) (sound : w.Sound) (tables : w.Tables)
    (machine : w.InForce cr3) (present : (w.sched.slot .normal j).present = true)
    (same : cr3 = (w.sched.slot .normal j).tableAddr) : j = w.sched.currentId := by
  rcases machine with rfl | rfl | ⟨t, running, rfl⟩
  · exact own.current j present same
  · exact absurd same (tables.not_kernel present)
  · rw [tables.slot_present present] at same
    have nonzero := tables.slot_present present ▸ tables.present _ _ present
    have task := tables.distinct _ _ same (same ▸ nonzero)
    exact (congrArg Task.id task).symm.trans (sound.running t running).2

/-- What a switch records, it records in the slot that `CURRENT_ID` names. -/
theorem resumeTable_switched {s s' : Sched} {regs : Context} {cr3 id : Nat} (switched : Switched s s' (.interrupting regs cr3) id)
    (typ : ProcType) (i : Nat) :
    (s'.slot typ i).resumeTable = (s.slot typ i).resumeTable ∨ (i = s.currentId ∧ (s'.slot typ i).resumeTable = cr3) := by
  rw [switched.slots]
  split
  · rename_i hit
    by_cases normal : typ = .normal
    · exact Or.inr ⟨hit.2, by simp only [Slot.saving, normal, if_true, Trap.interrupting_cr3]⟩
    · exact Or.inl (by simp only [Slot.saving, normal, if_false])
  · exact Or.inl rfl

/-- A switch records the interrupted CR3 in the slot that `CURRENT_ID` names:
if that is the table of a present normal process, it is the right one. -/
theorem OwnTables.turned {w : World} {s' : Sched} {regs : Context} {cr3 id : Nat} (own : w.OwnTables)
    (sound : w.Sound) (tables : w.Tables) (switched : Switched w.sched s' (.interrupting regs cr3) id)
    (machine : w.InForce cr3) :
    ((w.interrupted regs cr3).turned s' (w.sched.slot w.sched.next id).resumeTable id).OwnTables := by
  refine ⟨fun typ i => ?_, own.known _ _, fun i j present same => ?_, fun j present same => ?_⟩
  · change w.Known (s'.slot typ i).resumeTable
    rcases resumeTable_switched switched typ i with old | ⟨_, saved⟩
    · rw [old]
      exact own.known typ i
    · rw [saved]
      exact own.known_inForce sound machine
  · change (s'.slot .normal j).present = true at present
    change (s'.slot .normal i).resumeTable = (s'.slot .normal j).tableAddr at same
    rw [switched.slot_present] at present
    rw [switched.slot_tableAddr] at same
    rcases resumeTable_switched switched .normal i with old | ⟨rfl, saved⟩
    · exact own.recorded i j present (old.symm.trans same)
    · exact (own.inForce_current sound tables machine present (saved.symm.trans same)).symm
  · change (s'.slot .normal j).present = true at present
    change (w.sched.slot w.sched.next id).resumeTable = (s'.slot .normal j).tableAddr at same
    change j = s'.currentId
    rw [switched.slot_present] at present
    rw [switched.slot_tableAddr] at same
    rw [switched.currentId]
    cases turn : w.sched.next with
    | normal =>
      rw [turn] at same
      exact (own.recorded id j present same).symm
    | driver =>
      rw [turn, Sched.slot_driver_resumeTable] at same
      have apart := tables.slot_unique same.symm (tables.present _ _ present)
      cases apart.1

theorem OwnTables.step {w w' : World} {event : Event} (own : w.OwnTables) (sound : w.Sound)
    (tables : w.Tables) (admits : w.Admits event) (run : w.step event = some w') : w'.OwnTables := by
  rcases step_cases sound.mirrors run with ⟨typ, s', id, frame, creates, created, rfl⟩ |
    ⟨typ, index, s', _, removed, rfl⟩ | ⟨_, _, _, _, rfl⟩ | ⟨regs, cr3, _, idles, rfl⟩ |
    ⟨regs, cr3, s', _, stays, rfl⟩ | ⟨regs, cr3, s', id, rfl, switched, rfl⟩
  · exact own.born tables created (creates.fresh admits.1)
  · have slot := removed.slot_kept
    refine ⟨fun typ' i => (slot typ' i).1 ▸ own.known typ' i, own.inForce, fun i j present same => ?_,
      fun j present same => ?_⟩
    · exact own.recorded i j ((slot _ j).2.2 present) ((slot _ i).1.symm.trans (same.trans (slot _ j).2.1))
    · exact (own.current j ((slot _ j).2.2 present) (same.trans (slot _ j).2.1)).trans removed.currentId.symm
  · exact own
  · exact ⟨own.known, Or.inr (Or.inl rfl), own.recorded,
      fun j present same => absurd same (tables.not_kernel present)⟩
  · have slots : s'.slot = w.sched.slot := stays.slots
    refine ⟨fun typ i => ?_, ?_, fun i j present same => ?_, fun j present same => ?_⟩
    · change w.Known (s'.slot typ i).resumeTable
      rw [slots]
      exact own.known typ i
    · change w.Known (if _ then kernelPml4 else _)
      split
      · exact Or.inr (Or.inl rfl)
      · exact tables.tableAddr_known _ _
    · change (s'.slot .normal j).present = true at present
      change (s'.slot .normal i).resumeTable = (s'.slot .normal j).tableAddr at same
      rw [slots] at present same
      exact own.recorded i j present same
    · change (s'.slot .normal j).present = true at present
      change (if _ then kernelPml4 else _) = (s'.slot .normal j).tableAddr at same
      change j = s'.currentId
      rw [slots] at present same
      split at same
      · exact absurd same (tables.not_kernel present)
      · rename_i nonzero
        rw [stays.currentId]
        exact (tables.slot_unique same nonzero).2.symm
  · exact own.turned sound tables switched (admits.2 regs cr3 rfl)

theorem Reach.ownTables {w : World} (reach : Reach Admits w) : w.OwnTables := by
  induction reach with
  | boot => exact OwnTables.boot
  | next before admits run ih => exact ih.step before.sound (before.tables fun _ _ => And.left) admits run

/-- Whether `IS_DRIVER` names the class of the running task was decided by the
tick that came last: it does just when the other class had no work then. -/
def ClassAgrees (w : World) : Prop :=
  ∀ t, w.running = some t → w.Holds t →
    ∃ before, w.arrived = some before ∧ (w.sched.next = t.typ ↔ before.queue t.typ.other = [])

theorem ClassAgrees.step {w w' : World} {event : Event} (agrees : w.ClassAgrees) (sound : w.Sound)
    (run : w.step event = some w') : w'.ClassAgrees := by
  rcases step_cases sound.mirrors run with ⟨typ, s', id, frame, _, created, rfl⟩ |
    ⟨typ, index, s', _, removed, rfl⟩ | ⟨_, _, _, _, rfl⟩ | ⟨regs, cr3, _, idles, rfl⟩ |
    ⟨regs, cr3, s', _, stays, rfl⟩ | ⟨regs, cr3, s', id, _, switched, rfl⟩
  · intro t running holds
    rcases born_holds created holds with rfl | ⟨_, old⟩
    · exact absurd (sound.running _ running).1 (Nat.lt_irrefl _)
    · obtain ⟨before, arrived, agree⟩ := agrees t running old
      exact ⟨before, arrived, created.next ▸ agree⟩
  · intro t running holds
    obtain ⟨before, arrived, agree⟩ := agrees t running (removed_holds removed holds).2
    exact ⟨before, arrived, removed.next ▸ agree⟩
  · exact agrees
  · intro t _ holds
    have queued := (sound.mirrors.mem t.typ t.id).mpr ⟨holds.1, holds.2.1⟩
    rw [idles.queue] at queued
    exact absurd queued List.not_mem_nil
  · intro t _ holds
    obtain ⟨bound, present, _⟩ := holds
    change (s'.slot t.typ t.id).present = true at present
    rw [stays.slots] at present
    have queued := (sound.mirrors.mem t.typ t.id).mpr ⟨bound, present⟩
    rcases w.sched.next.eq_or_other t.typ with same | same
    · rw [same, stays.empty] at queued
      exact absurd queued List.not_mem_nil
    · refine ⟨w.sched, rfl, iff_of_true (stays.next.trans same.symm) ?_⟩
      rw [same, ProcType.other_other]
      exact stays.empty
  · intro t running _
    cases Option.some.inj running
    refine ⟨w.sched, rfl, ?_⟩
    change s'.next = w.sched.next ↔ w.sched.queue w.sched.next.other = []
    rw [switched.next]
    split
    · rename_i none
      exact iff_of_true rfl none
    · rename_i some
      exact iff_of_false w.sched.next.other_ne some

theorem Reach.classAgrees {allow : World → Event → Prop} {w : World} (reach : Reach allow w) :
    w.ClassAgrees := by
  induction reach with
  | boot => exact fun t running => (by cases running)
  | next before _ run ih => exact ih.step before.sound run

/-- In the table that `IS_DRIVER` names, the search finds the slot of a present
task of that class by its own table, unless an earlier slot recorded that table. -/
theorem pagefaultProcess_own_iff {w : World} {t : Task} (tables : w.Tables) (holds : w.Holds t)
    (typ : w.sched.next = t.typ) :
    pagefaultProcess w.sched (w.sched.slot t.typ t.id).tableAddr = some (t.typ, t.id) ↔
      ∀ i < t.id, (w.sched.slot t.typ i).resumeTable ≠ (w.sched.slot t.typ t.id).tableAddr := by
  have nonzero := tables.present _ _ holds.2.1
  rw [pagefaultProcess_eq, typ]
  constructor
  · intro selects i earlier recorded
    obtain ⟨index, first, same⟩ := Option.map_eq_some_iff.mp selects
    have missed := (firstSlot_some ((Prod.mk.inj same).2 ▸ first)).2.2 i earlier
    rw [recorded, beq_self_eq_true, Bool.or_true] at missed
    cases missed
  · intro unrecorded
    refine Option.map_eq_some_iff.mpr ⟨t.id, firstSlot_first holds.1 (by simp) fun i earlier => ?_, rfl⟩
    rw [Bool.or_eq_false_iff, beq_eq_false_iff_ne, beq_eq_false_iff_ne]
    exact ⟨fun table => Nat.ne_of_gt earlier (tables.slot_unique table nonzero).2, (unrecorded i earlier).symm⟩

/-- Over what the machine admits no earlier slot has recorded the table of a present task. -/
theorem OwnTables.unrecorded {w : World} {t : Task} (own : w.OwnTables) (tables : w.Tables) (holds : w.Holds t) {i : Nat}
    (earlier : i < t.id) : (w.sched.slot t.typ i).resumeTable ≠ (w.sched.slot t.typ t.id).tableAddr := by
  intro recorded
  refine Nat.ne_of_lt earlier ?_
  have present := holds.2.1
  cases typ : t.typ with
  | normal =>
    rw [typ] at recorded present
    exact own.recorded i t.id present recorded
  | driver =>
    rw [typ] at recorded present
    rw [Sched.slot_driver_resumeTable] at recorded
    exact (tables.slot_unique recorded (recorded ▸ tables.present _ _ present)).2

/-- While `IS_DRIVER` names the drivers, no slot matches the table of a normal
process: the search ends in the panic of `expect`. -/
theorem pagefaultProcess_normal_missed {w : World} {id birth : Nat} (tables : w.Tables)
    (holds : w.Holds ⟨.normal, id, birth⟩) (turn : w.sched.next = .driver) :
    pagefaultProcess w.sched (w.sched.slot .normal id).tableAddr = none := by
  rw [pagefaultProcess_eq, turn, Option.map_eq_none_iff, Option.eq_none_iff_forall_ne_some]
  intro i found
  have passes := (firstSlot_some found).2.1
  simp only [Sched.slot_driver_resumeTable, Bool.or_self, beq_iff_eq] at passes
  cases (tables.slot_unique passes (tables.present _ _ holds.2.1)).1

/-- A page fault of the running task selects that task just when the other class
had no work at the last tick, and no tick saved the task's table for a process
of an earlier slot. The second is never so where ticks find tables in force. -/
theorem pagefault_selects_running_iff {w : World} {t : Task} (reach : Reach FreshTables w)
    (running : w.running = some t) (holds : w.Holds t) :
    (pagefaultProcess w.sched (w.sched.slot t.typ t.id).tableAddr = some (t.typ, t.id) ↔
      (∃ before, w.arrived = some before ∧ before.queue t.typ.other = []) ∧
        ∀ i < t.id, (w.sched.slot t.typ i).resumeTable ≠ (w.sched.slot t.typ t.id).tableAddr) ∧
    (Reach Admits w →
      (pagefaultProcess w.sched (w.sched.slot t.typ t.id).tableAddr = some (t.typ, t.id) ↔
        ∃ before, w.arrived = some before ∧ before.queue t.typ.other = [])) := by
  obtain ⟨before, arrived, agree⟩ := reach.classAgrees t running holds
  have tables := reach.tables fun _ _ => id
  have selects_iff : pagefaultProcess w.sched (w.sched.slot t.typ t.id).tableAddr = some (t.typ, t.id) ↔
      (∃ before, w.arrived = some before ∧ before.queue t.typ.other = []) ∧
        ∀ i < t.id, (w.sched.slot t.typ i).resumeTable ≠ (w.sched.slot t.typ t.id).tableAddr := by
    constructor
    · intro selects
      have typ : w.sched.next = t.typ := by
        rw [pagefaultProcess_eq] at selects
        obtain ⟨index, _, same⟩ := Option.map_eq_some_iff.mp selects
        exact (Prod.mk.inj same).1
      exact ⟨⟨before, arrived, agree.mp typ⟩, (pagefaultProcess_own_iff tables holds typ).mp selects⟩
    · rintro ⟨⟨before', arrived', empty⟩, unrecorded⟩
      cases Option.some.inj (arrived.symm.trans arrived')
      exact (pagefaultProcess_own_iff tables holds (agree.mpr empty)).mpr unrecorded
  refine ⟨selects_iff, fun admitted => selects_iff.trans (and_iff_left fun i earlier => ?_)⟩
  exact admitted.ownTables.unrecorded tables holds earlier

/-- The first process can be a normal one. -/
theorem reach_first_normal {w : World} (run : World.step {} (.createNormal 0x2000000 0) = some w) : Reach Admits w :=
  .next .boot (by exact ⟨Fresh.boot (by decide) (by decide), fun _ _ other => (by cases other)⟩) run

/-- A normal process alone: no driver is queued when it is loaded, and its
fault selects it. -/
theorem pagefault_selects_lone_normal :
    ∃ w, World.run {} [.createNormal 0x2000000 0, .tick {} kernelPml4] = some w ∧
      pagefaultProcess w.sched 0x2000000 = some (.normal, 0) := by
  have r1 := reach_first_normal rfl
  have r2 : Reach Admits _ := .next r1
    (by exact ⟨trivial, fun _ _ same => (by cases same; exact Or.inr (Or.inl rfl))⟩)
    (rfl : World.step _ (.tick {} kernelPml4) = some _)
  have selects_iff := pagefault_selects_running_iff (r2.mono fun _ _ => And.left) rfl ⟨by decide, rfl, rfl⟩
  exact ⟨_, rfl, (selects_iff.2 r2).mpr ⟨_, rfl, rfl⟩⟩

/-- With a driver queued beside it, the same process faults while `IS_DRIVER`
names the drivers: the search goes through the driver table and panics. -/
theorem pagefault_misses_normal_beside_driver :
    ∃ w, World.run {} [.createNormal 0x2000000 0, .createDriver 0x2001000, .tick {} kernelPml4] = some w ∧
      Reach Admits w ∧ w.running = some ⟨.normal, 0, 0⟩ ∧ w.Holds ⟨.normal, 0, 0⟩ ∧
      (w.sched.slot .normal 0).tableAddr = 0x2000000 ∧
      pagefaultProcess w.sched (w.sched.slot .normal 0).tableAddr = none := by
  have r1 := reach_first_normal rfl
  have r2 : Reach Admits _ := .next r1
    (by exact ⟨(Fresh.boot (by decide) (by decide)).born (by decide) .., fun _ _ other => (by cases other)⟩)
    (rfl : World.step _ (.createDriver 0x2001000) = some _)
  have r3 : Reach Admits _ := .next r2
    (by exact ⟨trivial, fun _ _ same => (by cases same; exact Or.inr (Or.inl rfl))⟩)
    (rfl : World.step _ (.tick {} kernelPml4) = some _)
  refine ⟨_, rfl, r3, rfl, ⟨by decide, rfl, rfl⟩, rfl, ?_⟩
  exact pagefaultProcess_normal_missed (r3.tables fun _ _ => And.left) ⟨by decide, rfl, rfl⟩ rfl

end World
end ProkaKernel
