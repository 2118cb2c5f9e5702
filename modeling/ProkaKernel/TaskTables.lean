import ProkaKernel.TaskHistory

namespace ProkaKernel.World

/-- A page table that no task was ever created on. -/
def Fresh (w : World) (frame : Nat) : Prop :=
  frame ≠ 0 ∧ frame ≠ kernelPml4 ∧ ∀ t, w.table t ≠ frame

theorem Fresh.boot {frame : Nat} (nonzero : frame ≠ 0) (notKernel : frame ≠ kernelPml4) : Fresh {} frame :=
  ⟨nonzero, notKernel, fun _ => nonzero.symm⟩

theorem Fresh.born {w : World} {frame other : Nat} (fresh : w.Fresh frame) (apart : other ≠ frame)
    (s' : Sched) (typ : ProcType) (id : Nat) : (w.born s' typ id other).Fresh frame := by
  refine ⟨fresh.1, fresh.2.1, fun t => ?_⟩
  simp only [World.born, Function.update_apply]
  split
  · exact apart
  · exact fresh.2.2 t

/-- What `process::create` promises: it creates on a level-4 table that it has
just taken from the frame allocator, and these frames are never given back. -/
def FreshTables (w : World) : Event → Prop
  | .createNormal frame _ => w.Fresh frame
  | .createDriver frame => w.Fresh frame
  | _ => True

theorem Creates.fresh {w : World} {event : Event} {typ : ProcType} {frame : Nat}
    (creates : Creates event typ frame) (fresh : w.FreshTables event) : w.Fresh frame := by
  rcases creates with ⟨_, _, rfl⟩ | ⟨_, rfl⟩ <;> exact fresh

/-- Each slot that was ever used carries the table of its last task, and no
two tasks have the same table. -/
structure Tables (w : World) : Prop where
  slots : ∀ typ id, (w.sched.slot typ id).tableAddr = 0 ∨
    (w.sched.slot typ id).tableAddr = w.table (w.taskAt typ id)
  present : ∀ typ id, (w.sched.slot typ id).present = true → (w.sched.slot typ id).tableAddr ≠ 0
  counted : ∀ t, w.table t ≠ 0 → t.birth < w.clock
  distinct : ∀ t t', w.table t = w.table t' → w.table t ≠ 0 → t = t'
  kernel : ∀ t, w.table t ≠ kernelPml4

theorem Tables.slot_present {w : World} (tables : w.Tables) {typ : ProcType} {id : Nat}
    (present : (w.sched.slot typ id).present = true) :
    (w.sched.slot typ id).tableAddr = w.table (w.taskAt typ id) :=
  (tables.slots typ id).resolve_left (tables.present typ id present)

theorem Tables.holds {w : World} (tables : w.Tables) {t : Task} (holds : w.Holds t) :
    (w.sched.slot t.typ t.id).tableAddr = w.table t := by
  rw [tables.slot_present holds.2.1]
  obtain ⟨typ, id, birth⟩ := t
  simp only [taskAt, holds.2.2]

/-- A table address names one slot, among the present and the stale ones. -/
theorem Tables.slot_unique {w : World} (tables : w.Tables) {typ typ' : ProcType} {id id' : Nat}
    (same : (w.sched.slot typ id).tableAddr = (w.sched.slot typ' id').tableAddr)
    (nonzero : (w.sched.slot typ id).tableAddr ≠ 0) : typ = typ' ∧ id = id' := by
  have first := (tables.slots typ id).resolve_left nonzero
  have second := (tables.slots typ' id').resolve_left (same ▸ nonzero)
  have equal := tables.distinct _ _ (first.symm.trans (same.trans second)) (first ▸ nonzero)
  simp only [taskAt, Task.mk.injEq] at equal
  exact ⟨equal.1, equal.2.1⟩

theorem Tables.boot : Tables {} where
  slots typ id := Or.inl (by cases typ <;> rfl)
  present typ id present := by
    cases typ <;> simp [Sched.slot, NormalProcess.slot, DriverProcess.slot] at present
  counted t nonzero := absurd rfl nonzero
  distinct t t' _ nonzero := absurd rfl nonzero
  kernel t same := by simp [kernelPml4] at same

theorem Tables.congr {w w' : World} (tables : w.Tables)
    (slots : ∀ typ id, (w'.sched.slot typ id).tableAddr = (w.sched.slot typ id).tableAddr)
    (present : ∀ typ id, (w'.sched.slot typ id).present = true → (w.sched.slot typ id).present = true)
    (births : w'.births = w.births) (clock : w'.clock = w.clock) (table : w'.table = w.table) :
    w'.Tables where
  slots typ id := by rw [slots, table, taskAt, births]; exact tables.slots typ id
  present typ id here := by rw [slots]; exact tables.present typ id (present typ id here)
  counted t nonzero := by rw [clock]; exact tables.counted t (table ▸ nonzero)
  distinct t t' same nonzero := tables.distinct t t' (table ▸ same) (table ▸ nonzero)
  kernel t := by rw [table]; exact tables.kernel t

theorem Tables.born {w : World} {s' : Sched} {typ : ProcType} {id frame : Nat} (tables : w.Tables)
    (created : Created w.sched s' typ id frame) (fresh : w.Fresh frame) : (w.born s' typ id frame).Tables := by
  obtain ⟨nonzero, notKernel, unused⟩ := fresh
  have new : (w.born s' typ id frame).taskAt typ id = ⟨typ, id, w.clock⟩ := by
    simp only [taskAt, World.born, setAt_self]
  have unborn : w.table ⟨typ, id, w.clock⟩ = 0 := by
    by_contra used
    exact Nat.lt_irrefl _ (tables.counted _ used)
  refine ⟨fun typ' id' => ?_, fun typ' id' present => ?_, fun t used => ?_, fun t t' same used => ?_, fun t => ?_⟩
  · by_cases here : typ' = typ ∧ id' = id
    · obtain ⟨rfl, rfl⟩ := here
      right
      rw [new]
      simp only [World.born, created.slot, Slot.initial, Function.update_self]
    · have old : (w.born s' typ id frame).taskAt typ' id' = w.taskAt typ' id' := by
        simp only [taskAt, World.born, setAt_of_ne _ _ here]
      have apart : w.taskAt typ' id' ≠ ⟨typ, id, w.clock⟩ := fun same => by
        simp only [taskAt, Task.mk.injEq] at same
        exact here ⟨same.1, same.2.1⟩
      rw [old]
      simp only [World.born, created.others _ _ here, Function.update_of_ne apart]
      exact tables.slots typ' id'
  · by_cases here : typ' = typ ∧ id' = id
    · obtain ⟨rfl, rfl⟩ := here
      simpa only [World.born, created.slot, Slot.initial] using nonzero
    · simp only [World.born, created.others _ _ here] at present ⊢
      exact tables.present typ' id' present
  · simp only [World.born] at used ⊢
    by_cases new : t = ⟨typ, id, w.clock⟩
    · rw [new]
      exact Nat.lt_succ_self _
    · rw [Function.update_of_ne new] at used
      exact Nat.lt_succ_of_lt (tables.counted t used)
  · simp only [World.born, Function.update_apply] at same used
    by_cases first : t = ⟨typ, id, w.clock⟩
    · by_cases second : t' = ⟨typ, id, w.clock⟩
      · rw [first, second]
      · rw [if_pos first, if_neg second] at same
        exact absurd same.symm (unused t')
    · by_cases second : t' = ⟨typ, id, w.clock⟩
      · rw [if_neg first, if_pos second] at same
        exact absurd same (unused t)
      · rw [if_neg first, if_neg second] at same
        rw [if_neg first] at used
        exact tables.distinct t t' same used
  · simp only [World.born, Function.update_apply]
    split
    · exact notKernel
    · exact tables.kernel t

theorem Tables.step {w w' : World} {event : Event} (tables : w.Tables) (sound : w.Sound)
    (fresh : w.FreshTables event) (run : w.step event = some w') : w'.Tables := by
  rcases step_cases sound.mirrors run with ⟨typ, s', id, frame, creates, created, rfl⟩ |
    ⟨typ, index, s', _, removed, rfl⟩ | ⟨_, _, _, _, rfl⟩ | ⟨regs, cr3, _, idles, rfl⟩ |
    ⟨regs, cr3, s', _, stays, rfl⟩ | ⟨regs, cr3, s', id, _, switched, rfl⟩
  · exact tables.born created (creates.fresh fresh)
  · exact tables.congr (fun typ' id' => (removed.slot_kept typ' id').2.1)
      (fun typ' id' => (removed.slot_kept typ' id').2.2) rfl rfl rfl
  · exact tables
  · exact tables.congr (fun _ _ => rfl) (fun _ _ => id) rfl rfl rfl
  · have same : s'.slot = w.sched.slot := stays.slots
    exact tables.congr (fun typ' id' => congrArg (fun slot => (slot typ' id').tableAddr) same)
      (fun typ' id' present => same ▸ present) rfl rfl rfl
  · exact tables.congr switched.slot_tableAddr
      (fun typ' id' present => (switched.slot_present typ' id').symm.trans present) rfl rfl rfl

theorem Reach.tables {allow : World → Event → Prop} {w : World}
    (fresh : ∀ w event, allow w event → w.FreshTables event) (reach : Reach allow w) : w.Tables := by
  induction reach with
  | boot => exact Tables.boot
  | next before allowed run ih => exact ih.step before.sound (fresh _ _ allowed) run

end ProkaKernel.World
