import ProkaKernel.TaskHistory

namespace ProkaKernel.World

/-- If a tick with these registers and this CR3 loads a task, then it loads
what the task was last interrupted with, this tick included, or what it was
created with. -/
def Resumes (w : World) (regs : Context) (cr3 : Nat) : Prop :=
  ∀ s' context table, switchTask w.sched (.interrupting regs cr3) = .loaded s' context table →
    context = ((w.interrupted regs cr3).last (w.taskAt w.sched.next s'.currentId)).1 ∧
    (w.sched.next = .normal →
      table = ((w.interrupted regs cr3).last (w.taskAt w.sched.next s'.currentId)).2)

/-- At a tick that switches, the slot written by the save (class opposite to
the one `IS_DRIVER` names, index `CURRENT_ID`) is the slot of the running
task, wherever one of the two is a present process. -/
def SavesRunning (w : World) : Event → Prop
  | .tick _ _ => w.sched.queue w.sched.next ≠ [] → ∀ t, w.Holds t →
      ((t.typ = w.sched.next.other ∧ t.id = w.sched.currentId) ↔ w.running = some t)
  | _ => True

/-- The slot of a present task holds what the task has to be resumed with. -/
def Kept (w : World) (t : Task) : Prop :=
  (w.sched.slot t.typ t.id).context = (w.last t).1 ∧
  (t.typ = .normal → (w.sched.slot t.typ t.id).resumeTable = (w.last t).2)

/-- Every present task except the one on the CPU is kept in its slot. -/
def ContextsKept (w : World) : Prop :=
  ∀ t, w.Holds t → w.running ≠ some t → w.Kept t

theorem interrupted_last_running {w : World} {t : Task} (running : w.running = some t)
    (regs : Context) (cr3 : Nat) : (w.interrupted regs cr3).last t = (regs, cr3) := by
  simp only [interrupted, running, Function.update_self]

theorem interrupted_last_other {w : World} {t : Task} (other : w.running ≠ some t)
    (regs : Context) (cr3 : Nat) : (w.interrupted regs cr3).last t = w.last t := by
  unfold interrupted
  cases running : w.running with
  | none => rfl
  | some r =>
    have apart : t ≠ r := fun same => other (by rw [running, same])
    simp only [Function.update_of_ne apart]

theorem ContextsKept.born {w : World} {s' : Sched} {typ : ProcType} {id frame : Nat}
    (kept : w.ContextsKept) (sound : w.Sound) (created : Created w.sched s' typ id frame) :
    (w.born s' typ id frame).ContextsKept := by
  intro t holds other
  rcases born_holds created holds with rfl | ⟨apart, old⟩
  · refine ⟨?_, fun _ => ?_⟩ <;> simp only [World.born, created.slot, Function.update_self, Slot.initial]
  · have before := kept t old other
    have birth := sound.births t old
    have different : t ≠ ⟨typ, id, w.clock⟩ := by
      rintro rfl
      exact Nat.lt_irrefl _ birth
    simpa only [Kept, World.born, created.others _ _ apart, Function.update_of_ne different] using before

/-- A switch whose save goes to the running task keeps every context: the
running task through the save, all others because no slot of theirs is hit. -/
theorem ContextsKept.switched {w : World} {s' : Sched} {regs : Context} {cr3 id : Nat}
    (kept : w.ContextsKept) (saves : w.SavesRunning (.tick regs cr3))
    (switched : Switched w.sched s' (.interrupting regs cr3) id) {t : Task} (holds : w.Holds t)
    (last : Context × Nat) (atLast : (w.interrupted regs cr3).last t = last) :
    (s'.slot t.typ t.id).context = last.1 ∧ (t.typ = .normal → (s'.slot t.typ t.id).resumeTable = last.2) := by
  have hit := saves switched.busy t holds
  by_cases running : w.running = some t
  · rw [interrupted_last_running running] at atLast
    rw [switched.slots, if_pos (hit.mpr running), ← atLast]
    exact ⟨rfl, fun normal => by simp only [Slot.saving, normal, if_true, Trap.interrupting_cr3]⟩
  · rw [interrupted_last_other running] at atLast
    rw [switched.slots, if_neg (fun both => running (hit.mp both)), ← atLast]
    exact kept t holds running

theorem ContextsKept.step {w w' : World} {event : Event} (kept : w.ContextsKept) (sound : w.Sound)
    (saves : w.SavesRunning event) (run : w.step event = some w') : w'.ContextsKept := by
  rcases step_cases sound.mirrors run with ⟨typ, s', id, frame, _, created, rfl⟩ |
    ⟨typ, index, s', _, removed, rfl⟩ | ⟨_, _, _, _, rfl⟩ | ⟨regs, cr3, _, idles, rfl⟩ |
    ⟨regs, cr3, s', _, stays, rfl⟩ | ⟨regs, cr3, s', id, rfl, switched, rfl⟩
  · exact kept.born sound created
  · intro t holds other
    obtain ⟨apart, old⟩ := removed_holds removed holds
    simpa only [Kept, removed.others _ _ apart] using kept t old other
  · exact kept
  · intro t holds other
    change w.running ≠ some t at other
    have same := interrupted_last_other other regs cr3
    have before := kept t holds other
    rw [Kept, ← same] at before
    exact before
  · intro t holds other
    change w.running ≠ some t at other
    have same := interrupted_last_other other regs cr3
    have before := kept t (stays_holds stays holds) other
    rw [Kept, ← same, ← stays.slots] at before
    exact before
  · intro t holds _
    exact kept.switched saves switched (switched_holds switched holds) _ rfl

theorem Reach.contextsKept {w : World} (reach : Reach SavesRunning w) : w.ContextsKept := by
  induction reach with
  | boot =>
    intro t holds _
    have impossible := Sound.boot.births t holds
    exact absurd impossible (Nat.not_lt_zero _)
  | next before saves run ih => exact ih.step before.sound saves run

/-- In every run in which each switching tick saves into the running task's
slot, every task is resumed with its own registers and, if it is a normal
process, with its own CR3. -/
theorem contexts_preserved {w : World} {regs : Context} {cr3 : Nat} (reach : Reach SavesRunning w)
    (saves : w.SavesRunning (.tick regs cr3)) : w.Resumes regs cr3 := by
  intro s' context table out
  have sound := reach.sound
  rcases sound.mirrors.switchTask_cases (.interrupting regs cr3) with
    ⟨_, ret⟩ | ⟨_, _, ret⟩ | ⟨s, id, switched, load⟩
  · rw [ret] at out; cases out
  · rw [ret] at out; cases out
  · rw [load] at out
    cases out
    have holds : w.Holds (w.taskAt w.sched.next id) := ⟨switched.bound, switched.present, rfl⟩
    have loaded := reach.contextsKept.switched saves switched holds _ rfl
    have slot : s'.slot w.sched.next id = w.sched.slot w.sched.next id := by
      rw [switched.slots, if_neg (fun both => w.sched.next.other_ne both.1.symm)]
    rw [switched.currentId]
    simp only [taskAt] at loaded
    rw [slot] at loaded
    exact loaded

/-- The condition cannot be weakened for a single tick: where it fails, some
register state leaves a present task with a slot that is not its own. -/
theorem lost_of_not_savesRunning {w : World} {cr3 : Nat} (sound : w.Sound)
    (misses : ¬w.SavesRunning (.tick {} cr3)) :
    ∃ regs, ∀ w', w.step (.tick regs cr3) = some w' → ∃ t, w'.Holds t ∧ ¬w'.Kept t := by
  simp only [SavesRunning, not_forall] at misses
  obtain ⟨work, t, holds, differs⟩ := misses
  let regs : Context := { rax := (w.sched.slot t.typ t.id).context.rax + (w.last t).1.rax + 1 }
  refine ⟨regs, fun w' run => ⟨t, ?_⟩⟩
  rcases sound.mirrors.switchTask_cases (.interrupting regs cr3) with
    ⟨idles, _⟩ | ⟨_, stays, _⟩ | ⟨s', id, switched, out⟩
  · exact absurd (idles.queue _) work
  · exact absurd stays.empty work
  · rw [World.step, out] at run
    cases run
    refine ⟨⟨holds.1, by rw [← holds.2.1]; exact switched.slot_present _ _, holds.2.2⟩, fun kept => ?_⟩
    have stored := kept.1
    change (s'.slot t.typ t.id).context = ((w.interrupted _ cr3).last t).1 at stored
    rw [switched.slots] at stored
    by_cases running : w.running = some t
    · have aside : ¬(t.typ = w.sched.next.other ∧ t.id = w.sched.currentId) :=
        fun hit => differs (iff_of_true hit running)
      rw [if_neg aside, interrupted_last_running running] at stored
      have rax := congrArg Context.rax stored
      simp only [regs] at rax
      omega
    · have hit : t.typ = w.sched.next.other ∧ t.id = w.sched.currentId :=
        by_contra fun aside => differs (iff_of_false aside running)
      rw [if_pos hit, interrupted_last_other running] at stored
      have rax := congrArg Context.rax stored
      simp only [Slot.saving, Trap.interrupting_saved, regs] at rax
      omega

/-- A schedule that never shows the defect: each tick finds work in both
queues or in none, the running task is not removed, and no driver sits in the
slot that `CURRENT_ID` names before the first switch. -/
def Balanced (w : World) : Event → Prop
  | .tick _ _ => (w.sched.queue .normal = [] ↔ w.sched.queue .driver = []) ∧
      (w.running = none → (w.sched.slot .driver w.sched.currentId).present = false)
  | .remove typ index => w.running ≠ some (w.taskAt typ index)
  | _ => True

theorem Balanced.empty_iff {w : World} {regs : Context} {cr3 : Nat} (balanced : w.Balanced (.tick regs cr3))
    (typ : ProcType) : w.sched.queue typ = [] ↔ w.sched.queue typ.other = [] := by
  cases typ with
  | normal => exact balanced.1
  | driver => exact balanced.1.symm

/-- The running task is present and of the class opposite to the next one. -/
def InStep (w : World) : Prop :=
  (∀ t, w.running = some t → w.Holds t ∧ t.typ = w.sched.next.other) ∧
    (w.running = none → w.sched.next = .normal)

theorem InStep.saves {w : World} {regs : Context} {cr3 : Nat} (inStep : w.InStep) (sound : w.Sound)
    (balanced : w.Balanced (.tick regs cr3)) : w.SavesRunning (.tick regs cr3) := by
  intro _ t holds
  cases running : w.running with
  | none =>
    refine iff_of_false ?_ (fun same => by cases same)
    rintro ⟨typ, id⟩
    rw [inStep.2 running] at typ
    have absent := balanced.2 running
    have present := holds.2.1
    rw [typ, id] at present
    simp only [ProcType.other, absent, Bool.false_eq_true] at present
  | some r =>
    obtain ⟨rHolds, rTyp⟩ := inStep.1 r running
    have rId := (sound.running r running).2
    constructor
    · rintro ⟨typ, id⟩
      obtain ⟨t1, t2, t3⟩ := t
      obtain ⟨r1, r2, r3⟩ := r
      simp only at typ id rTyp rId
      subst typ id rTyp rId
      have birth := holds.2.2.symm.trans rHolds.2.2
      simp only at birth
      rw [birth]
    · rintro same
      cases same
      exact ⟨rTyp, rId⟩

theorem InStep.step {w w' : World} {event : Event} (inStep : w.InStep) (sound : w.Sound)
    (balanced : w.Balanced event) (run : w.step event = some w') : w'.InStep := by
  rcases step_cases sound.mirrors run with ⟨typ, s', id, frame, _, created, rfl⟩ |
    ⟨typ, index, s', rfl, removed, rfl⟩ | ⟨_, _, _, _, rfl⟩ | ⟨regs, cr3, _, idles, rfl⟩ |
    ⟨regs, cr3, s', rfl, stays, rfl⟩ | ⟨regs, cr3, s', id, rfl, switched, rfl⟩
  · refine ⟨fun t running => ?_, fun idle => created.next.trans (inStep.2 idle)⟩
    obtain ⟨holds, typ'⟩ := inStep.1 t running
    have apart : ¬(t.typ = typ ∧ t.id = id) := by
      rintro ⟨rfl, rfl⟩
      exact absurd holds.2.1 (by rw [created.free]; decide)
    refine ⟨⟨holds.1, ?_, ?_⟩, by rw [typ']; exact congrArg ProcType.other created.next.symm⟩
    · rw [← holds.2.1]
      exact congrArg Slot.present (created.others _ _ apart)
    · exact (setAt_of_ne _ _ apart).trans holds.2.2
  · refine ⟨fun t running => ?_, fun idle => removed.next.trans (inStep.2 idle)⟩
    obtain ⟨holds, typ'⟩ := inStep.1 t running
    have apart : ¬(t.typ = typ ∧ t.id = index) := by
      rintro ⟨rfl, rfl⟩
      refine balanced (running.trans ?_)
      simp only [taskAt, holds.2.2]
    refine ⟨⟨holds.1, ?_, holds.2.2⟩, by rw [typ']; exact congrArg ProcType.other removed.next.symm⟩
    rw [← holds.2.1]
    exact congrArg Slot.present (removed.others _ _ apart)
  · exact inStep
  · exact inStep
  · exact absurd ((balanced.empty_iff _).mp stays.empty) stays.work
  · have other := (balanced.empty_iff _).not.mp switched.busy
    have turn : s'.next = w.sched.next.other := by rw [switched.next, if_neg other]
    refine ⟨fun t running => ?_, fun idle => by cases idle⟩
    cases Option.some.inj running
    refine ⟨⟨switched.bound, (switched.slot_present _ _).trans switched.present, rfl⟩, ?_⟩
    change w.sched.next = s'.next.other
    rw [turn, ProcType.other_other]

theorem Reach.inStep {w : World} (reach : Reach Balanced w) : w.InStep := by
  induction reach with
  | boot => exact ⟨fun t running => (by cases running), fun _ => rfl⟩
  | next before balanced run ih => exact ih.step before.sound balanced run

theorem Reach.savesRunning {w : World} (reach : Reach Balanced w) : Reach SavesRunning w := by
  induction reach with
  | boot => exact .boot
  | @next w w' event before balanced run ih =>
    refine ih.next ?_ run
    cases event with
    | tick regs cr3 => exact before.inStep.saves before.sound balanced
    | _ => trivial

/-- One normal process alone: its first time slice is lost, because the tick
that ends it saves into the driver table. -/
theorem context_lost_without_drivers :
    ∃ w, World.run {} [.createNormal 0x2000000 0, .tick {} kernelPml4] = some w ∧
      ¬w.Resumes { rax := 7 } 0x2000000 := by
  refine ⟨_, rfl, fun resumes => ?_⟩
  have wrong := (resumes _ _ _ rfl).1
  revert wrong
  decide

/-- One process of each class: after two ticks the normal process has been
interrupted with `rax = 7`, and the third tick resumes it with that. -/
theorem context_preserved_with_driver :
    ∃ w, World.run {} [.createNormal 0x2000000 0, .createDriver 0x2001000, .tick {} kernelPml4,
        .tick { rax := 7 } 0x2000000] = some w ∧
      (∃ s', switchTask w.sched (.interrupting { rax := 9 } 0x2001000) =
        .loaded s' { rax := 7 } 0x2000000) ∧
      w.Resumes { rax := 9 } 0x2001000 := by
  have r1 : Reach Balanced _ := .next .boot (by exact trivial)
    (rfl : World.step {} (.createNormal 0x2000000 0) = some _)
  have r2 : Reach Balanced _ := .next r1 (by exact trivial)
    (rfl : World.step _ (.createDriver 0x2001000) = some _)
  have r3 : Reach Balanced _ := .next r2 (by exact ⟨by decide, by decide⟩)
    (rfl : World.step _ (.tick {} kernelPml4) = some _)
  have r4 : Reach Balanced _ := .next r3 (by exact ⟨by decide, by decide⟩)
    (rfl : World.step _ (.tick { rax := 7 } 0x2000000) = some _)
  exact ⟨_, rfl, ⟨_, rfl⟩, contexts_preserved r4.savesRunning
    (r4.inStep.saves r4.sound ⟨by decide, by decide⟩)⟩

end ProkaKernel.World
