import ProkaKernel.RunQueues

namespace ProkaKernel

/-- One process over its life: a slot and the number of its creation. Two
processes that use the same slot one after the other are different tasks. -/
structure Task where
  typ : ProcType
  id : Nat
  birth : Nat
  deriving DecidableEq

/-- The scheduler together with what an observer of the machine knows. `cr3`
is the page table last put in force, `running` the task last loaded, `last t`
the registers and CR3 with which `t` was last interrupted, or those it was
created with; `owner` tells whose registers a slot holds, `table` the page
table a task was created on, `gone` the removed tasks, `arrived` the state in
which the last tick came. Nothing here is read by the code. -/
structure World where
  sched : Sched := {}
  cr3 : Nat := kernelPml4
  births : ProcType → Nat → Nat := fun _ _ => 0
  clock : Nat := 0
  running : Option Task := none
  last : Task → Context × Nat := fun _ => ({}, 0)
  owner : ProcType → Nat → Option Task := fun _ _ => none
  table : Task → Nat := fun _ => 0
  gone : List Task := []
  arrived : Option Sched := none

/-- Update of a function of class and slot. -/
def setAt {α : Type} (f : ProcType → Nat → α) (typ : ProcType) (id : Nat) (value : α) :
    ProcType → Nat → α :=
  fun typ' j => if typ' = typ ∧ j = id then value else f typ' j

@[simp] theorem setAt_self {α : Type} (f : ProcType → Nat → α) (typ : ProcType) (id : Nat) (value : α) :
    setAt f typ id value typ id = value := if_pos ⟨rfl, rfl⟩

theorem setAt_of_ne {α : Type} (f : ProcType → Nat → α) {typ typ' : ProcType} {id j : Nat} (value : α)
    (apart : ¬(typ' = typ ∧ j = id)) : setAt f typ id value typ' j = f typ' j := if_neg apart

namespace World

/-- The task that a slot belongs to, or belonged to last. -/
def taskAt (w : World) (typ : ProcType) (id : Nat) : Task := ⟨typ, id, w.births typ id⟩

/-- The task is a present process. -/
def Holds (w : World) (t : Task) : Prop :=
  t.id < maxPs ∧ (w.sched.slot t.typ t.id).present = true ∧ w.births t.typ t.id = t.birth

/-- A process of class `typ` was put into slot `id`. -/
def born (w : World) (s' : Sched) (typ : ProcType) (id frame : Nat) : World :=
  { w with
    sched := s'
    births := setAt w.births typ id w.clock
    clock := w.clock + 1
    last := Function.update w.last ⟨typ, id, w.clock⟩ (Context.initial typ, frame)
    owner := setAt w.owner typ id (some ⟨typ, id, w.clock⟩)
    table := Function.update w.table ⟨typ, id, w.clock⟩ frame }

/-- A tick interrupts the running task with these registers and this CR3. -/
def interrupted (w : World) (regs : Context) (cr3 : Nat) : World :=
  { w with
    last := match w.running with
      | none => w.last
      | some t => Function.update w.last t (regs, cr3)
    arrived := some w.sched }

/-- A tick went back to the interrupted code. -/
def returned (w : World) (s' : Sched) (cr3 : Nat) : World := { w with sched := s', cr3 := cr3 }

/-- A tick saved the running task and loaded the task of slot `id`. -/
def turned (w : World) (s' : Sched) (cr3 id : Nat) : World :=
  { w with
    sched := s'
    cr3 := cr3
    running := some (w.taskAt w.sched.next id)
    owner := setAt w.owner w.sched.next.other w.sched.currentId w.running }

/-- The slot that a creation appended to the queue. -/
def newSlot (queue : List Nat) : Nat := queue.getLast?.getD 0

def step (w : World) : Event → Option World
  | .createNormal frame priority =>
    (createNormal w.sched frame priority).map fun s' => w.born s' .normal (newSlot s'.normalQueue) frame
  | .createDriver frame =>
    (createDriver w.sched frame).map fun s' => w.born s' .driver (newSlot s'.driverQueue) frame
  | .remove typ index =>
    match remove w.sched typ index with
    | .ok s' => some { w with sched := s', gone := w.taskAt typ index :: w.gone }
    | .error _ => some w
  | .tick regs cr3 =>
    match switchTask w.sched (.interrupting regs cr3) with
    | .panicked => none
    | .returned s' table => some ((w.interrupted regs cr3).returned s' table)
    | .loaded s' _ table => some ((w.interrupted regs cr3).turned s' table s'.currentId)

/-- All runs from boot whose events are allowed in the state they meet. -/
inductive Reach (allow : World → Event → Prop) : World → Prop
  | boot : Reach allow {}
  | next {w w' event} : Reach allow w → allow w event → w.step event = some w' → Reach allow w'

theorem Reach.mono {allow allow' : World → Event → Prop} (weaker : ∀ w event, allow w event → allow' w event) {w : World}
    (reach : Reach allow w) : Reach allow' w := by
  induction reach with
  | boot => exact .boot
  | next _ allowed run ih => exact .next ih (weaker _ _ allowed) run

def run (w : World) : List Event → Option World
  | [] => some w
  | event :: events => (w.step event).bind (run · events)

theorem newSlot_created {s s' : Sched} {typ : ProcType} {id frame : Nat} (created : Created s s' typ id frame) :
    newSlot (s'.queue typ) = id := by
  simp [newSlot, created.queue]

/-- What a creation does to the world. -/
theorem step_createNormal {w w' : World} {frame priority : Nat}
    (run : w.step (.createNormal frame priority) = some w') :
    ∃ s' id, Created w.sched s' .normal id frame ∧ w' = w.born s' .normal id frame := by
  obtain ⟨s', creation, same⟩ := Option.map_eq_some_iff.mp run
  obtain ⟨id, created⟩ := createNormal_created creation
  have slot : newSlot s'.normalQueue = id := newSlot_created created
  exact ⟨s', id, created, by rw [← same, slot]⟩

theorem step_createDriver {w w' : World} {frame : Nat}
    (run : w.step (.createDriver frame) = some w') :
    ∃ s' id, Created w.sched s' .driver id frame ∧ w' = w.born s' .driver id frame := by
  obtain ⟨s', creation, same⟩ := Option.map_eq_some_iff.mp run
  obtain ⟨id, created⟩ := createDriver_created creation
  have slot : newSlot s'.driverQueue = id := newSlot_created created
  exact ⟨s', id, created, by rw [← same, slot]⟩

/-- The page table a creation event asks for. -/
def Creates (event : Event) (typ : ProcType) (frame : Nat) : Prop :=
  (typ = .normal ∧ ∃ priority, event = .createNormal frame priority) ∨
    (typ = .driver ∧ event = .createDriver frame)

/-- The single case analysis of an event for the history arguments. -/
theorem step_cases {w w' : World} {event : Event} (mirrors : Mirrors w.sched)
    (run : w.step event = some w') :
    (∃ typ s' id frame, Creates event typ frame ∧ Created w.sched s' typ id frame ∧
      w' = w.born s' typ id frame) ∨
    (∃ typ index s', event = .remove typ index ∧ Removed w.sched s' typ index ∧
      w' = { w with sched := s', gone := w.taskAt typ index :: w.gone }) ∨
    (∃ typ index, event = .remove typ index ∧ index ∉ w.sched.queue typ ∧ w' = w) ∨
    (∃ regs cr3, event = .tick regs cr3 ∧ Idles w.sched ∧
      w' = (w.interrupted regs cr3).returned w.sched kernelPml4) ∨
    (∃ regs cr3 s', event = .tick regs cr3 ∧ Stays w.sched s' ∧
      w' = (w.interrupted regs cr3).returned s'
        (if (w.sched.slot w.sched.next.other w.sched.currentId).tableAddr = 0 then kernelPml4
          else (w.sched.slot w.sched.next.other w.sched.currentId).tableAddr)) ∨
    (∃ regs cr3 s' id, event = .tick regs cr3 ∧
      Switched w.sched s' (.interrupting regs cr3) id ∧
      w' = (w.interrupted regs cr3).turned s' (w.sched.slot w.sched.next id).resumeTable id) := by
  cases event with
  | createNormal frame priority =>
    obtain ⟨s', id, created, same⟩ := step_createNormal run
    exact Or.inl ⟨.normal, s', id, frame, Or.inl ⟨rfl, priority, rfl⟩, created, same⟩
  | createDriver frame =>
    obtain ⟨s', id, created, same⟩ := step_createDriver run
    exact Or.inl ⟨.driver, s', id, frame, Or.inr ⟨rfl, rfl⟩, created, same⟩
  | remove typ index =>
    simp only [step] at run
    split at run
    · rename_i s' removal
      cases run
      exact Or.inr (Or.inl ⟨typ, index, s', rfl, remove_removed removal, rfl⟩)
    · rename_i error removal
      cases run
      refine Or.inr (Or.inr (Or.inl ⟨typ, index, rfl, fun queued => ?_, rfl⟩))
      obtain ⟨bound, present⟩ := (mirrors.mem typ index).mp queued
      rcases remove_error removal with ⟨_, outside⟩ | ⟨_, _, absent⟩
      · omega
      · rw [absent] at present
        cases present
  | tick regs cr3 =>
    simp only [step] at run
    refine Or.inr (Or.inr (Or.inr ?_))
    rcases mirrors.switchTask_cases (.interrupting regs cr3) with
      ⟨idles, out⟩ | ⟨s', stays, out⟩ | ⟨s', id, switched, out⟩
    · rw [out] at run
      cases run
      exact Or.inl ⟨regs, cr3, rfl, idles, rfl⟩
    · rw [out] at run
      cases run
      exact Or.inr (Or.inl ⟨regs, cr3, s', rfl, stays, rfl⟩)
    · rw [out] at run
      cases run
      exact Or.inr (Or.inr ⟨regs, cr3, s', id, rfl, switched, by rw [switched.currentId]⟩)

/-- Facts about every run: the queues mirror the tables, births are counted,
and the running task is the one named by `CURRENT_ID`. -/
structure Sound (w : World) : Prop where
  mirrors : Mirrors w.sched
  births : ∀ t, w.Holds t → t.birth < w.clock
  running : ∀ t, w.running = some t → t.birth < w.clock ∧ t.id = w.sched.currentId

theorem Holds.of_present {w w' : World} {t : Task} (holds : w'.Holds t) (births : w'.births = w.births)
    (present : (w'.sched.slot t.typ t.id).present = (w.sched.slot t.typ t.id).present) : w.Holds t :=
  ⟨holds.1, present ▸ holds.2.1, births ▸ holds.2.2⟩

theorem stays_holds {w : World} {s' : Sched} {regs : Context} {cr3 table : Nat} (stays : Stays w.sched s')
    {t : Task} (holds : ((w.interrupted regs cr3).returned s' table).Holds t) : w.Holds t :=
  holds.of_present rfl (congrArg (fun slot => (slot t.typ t.id).present) stays.slots)

theorem switched_holds {w : World} {s' : Sched} {trap : Trap} {regs : Context} {cr3 table id : Nat}
    (switched : Switched w.sched s' trap id) {t : Task}
    (holds : ((w.interrupted regs cr3).turned s' table id).Holds t) : w.Holds t :=
  holds.of_present rfl (switched.slot_present t.typ t.id)

theorem born_holds {w : World} {s' : Sched} {typ : ProcType} {id frame : Nat}
    (created : Created w.sched s' typ id frame) {t : Task} (holds : (w.born s' typ id frame).Holds t) :
    t = ⟨typ, id, w.clock⟩ ∨ (¬(t.typ = typ ∧ t.id = id) ∧ w.Holds t) := by
  obtain ⟨bound, present, birth⟩ := holds
  by_cases here : t.typ = typ ∧ t.id = id
  · left
    obtain ⟨typ', id', birth'⟩ := t
    obtain ⟨rfl, rfl⟩ := here
    simp only [born, setAt_self] at birth
    rw [birth]
  · refine Or.inr ⟨here, bound, ?_, ?_⟩
    · rw [← created.others t.typ t.id here]
      exact present
    · simpa only [born, setAt_of_ne _ _ here] using birth

theorem removed_holds {w : World} {s' : Sched} {typ : ProcType} {index : Nat} {gone : List Task}
    (removed : Removed w.sched s' typ index) {t : Task} (holds : Holds { w with sched := s', gone := gone } t) :
    ¬(t.typ = typ ∧ t.id = index) ∧ w.Holds t := by
  obtain ⟨bound, present, birth⟩ := holds
  have apart : ¬(t.typ = typ ∧ t.id = index) := by
    rintro ⟨rfl, rfl⟩
    simp only [removed.slot, Bool.false_eq_true] at present
  exact ⟨apart, bound, by rw [← removed.others t.typ t.id apart]; exact present, birth⟩

theorem Sound.boot : Sound {} where
  mirrors := mirrors_boot
  births t holds := by
    obtain ⟨_, present, _⟩ := holds
    cases typ : t.typ <;> simp [typ, Sched.slot, NormalProcess.slot, DriverProcess.slot] at present
  running t run := by cases run

theorem Sound.step {w w' : World} {event : Event} (sound : Sound w) (run : w.step event = some w') :
    Sound w' := by
  rcases step_cases sound.mirrors run with ⟨typ, s', id, frame, _, created, rfl⟩ |
    ⟨typ, index, s', _, removed, rfl⟩ | ⟨_, _, _, _, rfl⟩ | ⟨regs, cr3, _, idles, rfl⟩ |
    ⟨regs, cr3, s', _, stays, rfl⟩ | ⟨regs, cr3, s', id, _, switched, rfl⟩
  · refine ⟨sound.mirrors.created created, fun t holds => ?_, fun t running => ?_⟩
    · rcases born_holds created holds with rfl | ⟨_, old⟩
      · exact Nat.lt_succ_self _
      · exact Nat.lt_succ_of_lt (sound.births t old)
    · obtain ⟨birth, current⟩ := sound.running t running
      exact ⟨Nat.lt_succ_of_lt birth, current.trans created.currentId.symm⟩
  · refine ⟨sound.mirrors.removed removed, fun t holds => sound.births t (removed_holds removed holds).2,
      fun t running => ?_⟩
    obtain ⟨birth, current⟩ := sound.running t running
    exact ⟨birth, current.trans removed.currentId.symm⟩
  · exact sound
  · exact ⟨sound.mirrors, sound.births, sound.running⟩
  · refine ⟨sound.mirrors.stays stays, fun t holds => ?_, fun t running => ?_⟩
    · exact sound.births t (stays_holds stays holds)
    · obtain ⟨birth, current⟩ := sound.running t running
      exact ⟨birth, current.trans stays.currentId.symm⟩
  · refine ⟨sound.mirrors.switched switched, fun t holds => ?_, fun t running => ?_⟩
    · exact sound.births t (switched_holds switched holds)
    · cases Option.some.inj running
      refine ⟨sound.births _ ⟨switched.bound, switched.present, rfl⟩, switched.currentId.symm⟩

theorem Reach.sound {allow : World → Event → Prop} {w : World} (reach : Reach allow w) : Sound w := by
  induction reach with
  | boot => exact Sound.boot
  | next _ _ run ih => exact ih.step run

end World
end ProkaKernel
