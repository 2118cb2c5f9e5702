import ProkaKernel.Scheduler

namespace ProkaKernel

def Context.initial : ProcType → Context
  | .normal => Context.normal
  | .driver => Context.driver

/-- A slot right after a process was created in it. -/
def Slot.initial (typ : ProcType) (frame : Nat) : Slot where
  present := true
  context := Context.initial typ
  resumeTable := frame
  tableAddr := frame
  stackBottom := 0x7FFFFFFFF000 - 0x100000
  heapRange := []

/-- A slot after the save of an interrupted task. -/
def Slot.saving (slot : Slot) (typ : ProcType) (trap : Trap) : Slot :=
  { slot with
    context := trap.saved
    resumeTable := if typ = .normal then trap.cr3 else slot.resumeTable }

theorem Sched.slot_update_normal (s : Sched) (id : Nat) (process : NormalProcess) (typ : ProcType) (j : Nat) :
    { s with normalProcess := Function.update s.normalProcess id process }.slot typ j =
      if typ = .normal ∧ j = id then process.slot else s.slot typ j := by
  cases typ with
  | normal =>
    simp only [Sched.slot, Function.update_apply, true_and]
    split <;> rfl
  | driver => exact (if_neg fun both => by cases both.1).symm

theorem Sched.slot_update_driver (s : Sched) (id : Nat) (process : DriverProcess) (typ : ProcType) (j : Nat) :
    { s with driverProcess := Function.update s.driverProcess id process }.slot typ j =
      if typ = .driver ∧ j = id then process.slot else s.slot typ j := by
  cases typ with
  | normal => exact (if_neg fun both => by cases both.1).symm
  | driver =>
    simp only [Sched.slot, Function.update_apply, true_and]
    split <;> rfl

/-- Everything a creation changes, and that it changes nothing else. -/
structure Created (s s' : Sched) (typ : ProcType) (id frame : Nat) : Prop where
  bound : id < maxPs
  free : (s.slot typ id).present = false
  slot : s'.slot typ id = Slot.initial typ frame
  others : ∀ typ' j, ¬(typ' = typ ∧ j = id) → s'.slot typ' j = s.slot typ' j
  queue : s'.queue typ = s.queue typ ++ [id]
  otherQueue : s'.queue typ.other = s.queue typ.other
  next : s'.next = s.next
  currentId : s'.currentId = s.currentId

theorem createNormal_created {s s' : Sched} {frame priority : Nat}
    (run : createNormal s frame priority = some s') : ∃ id, Created s s' .normal id frame := by
  obtain ⟨id, found, same⟩ := Option.map_eq_some_iff.mp run
  obtain ⟨bound, free⟩ := firstFree_spec found
  subst same
  refine ⟨id, bound, free, ?_, fun typ' j apart => ?_, rfl, rfl, rfl, rfl⟩
  · exact (s.slot_update_normal id _ .normal id).trans (if_pos ⟨rfl, rfl⟩)
  · exact (s.slot_update_normal id _ typ' j).trans (if_neg apart)

theorem createDriver_created {s s' : Sched} {frame : Nat}
    (run : createDriver s frame = some s') : ∃ id, Created s s' .driver id frame := by
  obtain ⟨id, found, same⟩ := Option.map_eq_some_iff.mp run
  obtain ⟨bound, free⟩ := firstFree_spec found
  subst same
  refine ⟨id, bound, free, ?_, fun typ' j apart => ?_, rfl, rfl, rfl, rfl⟩
  · exact (s.slot_update_driver id _ .driver id).trans (if_pos ⟨rfl, rfl⟩)
  · exact (s.slot_update_driver id _ typ' j).trans (if_neg apart)

/-- Everything a successful removal changes, and nothing else. -/
structure Removed (s s' : Sched) (typ : ProcType) (id : Nat) : Prop where
  bound : id < maxPs
  present : (s.slot typ id).present = true
  slot : s'.slot typ id = { s.slot typ id with present := false }
  others : ∀ typ' j, ¬(typ' = typ ∧ j = id) → s'.slot typ' j = s.slot typ' j
  queue : s'.queue typ = (s.queue typ).filter (fun item => item != id)
  otherQueue : s'.queue typ.other = s.queue typ.other
  next : s'.next = s.next
  currentId : s'.currentId = s.currentId

theorem remove_removed {s s' : Sched} {typ : ProcType} {id : Nat}
    (run : remove s typ id = .ok s') : Removed s s' typ id := by
  cases typ with
  | normal =>
    simp only [remove, removeNormal] at run
    split at run
    · cases run
    · rename_i bound
      split at run
      · rename_i present
        cases run
        refine ⟨by omega, present, ?_, fun typ' j apart => ?_, rfl, rfl, rfl, rfl⟩
        · exact (s.slot_update_normal id _ .normal id).trans (if_pos ⟨rfl, rfl⟩)
        · exact (s.slot_update_normal id _ typ' j).trans (if_neg apart)
      · cases run
  | driver =>
    simp only [remove, removeDriver] at run
    split at run
    · cases run
    · rename_i bound
      split at run
      · rename_i present
        cases run
        refine ⟨by omega, present, ?_, fun typ' j apart => ?_, rfl, rfl, rfl, rfl⟩
        · exact (s.slot_update_driver id _ .driver id).trans (if_pos ⟨rfl, rfl⟩)
        · exact (s.slot_update_driver id _ typ' j).trans (if_neg apart)
      · cases run

/-- The two ways in which a removal is refused. -/
theorem remove_error {s : Sched} {typ : ProcType} {id : Nat} {e : Error}
    (run : remove s typ id = .error e) :
    (e = .invalidIndex ∧ maxPs ≤ id) ∨
      (e = .processNotExist ∧ id < maxPs ∧ (s.slot typ id).present = false) := by
  cases typ with
  | normal =>
    simp only [remove, removeNormal] at run
    split at run
    · rename_i bound
      cases run
      exact Or.inl ⟨rfl, bound⟩
    · rename_i bound
      split at run
      · cases run
      · rename_i absent
        cases run
        exact Or.inr ⟨rfl, by omega, Bool.not_eq_true _ ▸ absent⟩
  | driver =>
    simp only [remove, removeDriver] at run
    split at run
    · rename_i bound
      cases run
      exact Or.inl ⟨rfl, bound⟩
    · rename_i bound
      split at run
      · cases run
      · rename_i absent
        cases run
        exact Or.inr ⟨rfl, by omega, Bool.not_eq_true _ ▸ absent⟩

section Tick
variable (s : Sched) (trap : Trap)

@[simp] theorem Sched.withQueue_slot (queue : List Nat) (typ : ProcType) :
    (s.withQueue queue typ).slot = s.slot := by
  cases typ <;> rfl

@[simp] theorem Sched.withQueue_queue_self (queue : List Nat) (typ : ProcType) :
    (s.withQueue queue typ).queue typ = queue := by
  cases typ <;> rfl

@[simp] theorem Sched.withQueue_queue_other (queue : List Nat) (typ : ProcType) :
    (s.withQueue queue typ).queue typ.other = s.queue typ.other := by
  cases typ <;> rfl

@[simp] theorem Sched.withQueue_currentId (queue : List Nat) (typ : ProcType) :
    (s.withQueue queue typ).currentId = s.currentId := by
  cases typ <;> rfl

@[simp] theorem Sched.withQueue_next (queue : List Nat) (typ : ProcType) :
    (s.withQueue queue typ).next = s.next := by
  cases typ <;> rfl

@[simp] theorem Sched.save_queue (id : Nat) (typ : ProcType) :
    (s.save id trap typ).queue = s.queue := by
  cases typ <;> rfl

@[simp] theorem Sched.save_next (id : Nat) (typ : ProcType) : (s.save id trap typ).next = s.next := by
  cases typ <;> rfl

theorem Sched.save_slot (id : Nat) (typ typ' : ProcType) (j : Nat) :
    (s.save id trap typ).slot typ' j =
      if typ' = typ ∧ j = id then (s.slot typ' j).saving typ' trap else s.slot typ' j := by
  cases typ with
  | normal =>
    refine (s.slot_update_normal id _ typ' j).trans ?_
    split
    · rename_i hit
      rw [hit.1, hit.2]
      rfl
    · rfl
  | driver =>
    refine (s.slot_update_driver id _ typ' j).trans ?_
    split
    · rename_i hit
      rw [hit.1, hit.2]
      rfl
    · rfl

end Tick

/-- A tick that finds both queues empty. -/
structure Idles (s : Sched) : Prop where
  normal : s.queue .normal = []
  driver : s.queue .driver = []

theorem Idles.queue {s : Sched} (idles : Idles s) (typ : ProcType) : s.queue typ = [] := by
  cases typ with
  | normal => exact idles.normal
  | driver => exact idles.driver

/-- A tick that finds only the other class queued: the turn passes to that
class, and nothing is saved or loaded. -/
structure Stays (s s' : Sched) : Prop where
  empty : s.queue s.next = []
  work : s.queue s.next.other ≠ []
  slots : s'.slot = s.slot
  queues : s'.queue = s.queue
  next : s'.next = s.next.other
  currentId : s'.currentId = s.currentId

/-- A tick that saves into the slot of the other class named by `CURRENT_ID`
and loads the task `id` at the head of the queue. -/
structure Switched (s s' : Sched) (trap : Trap) (id : Nat) : Prop where
  bound : id < maxPs
  present : (s.slot s.next id).present = true
  head : ∃ rest, s.queue s.next = id :: rest ∧ s'.queue s.next = rest ++ [id]
  otherQueue : s'.queue s.next.other = s.queue s.next.other
  slots : ∀ typ j, s'.slot typ j =
    if typ = s.next.other ∧ j = s.currentId then (s.slot typ j).saving typ trap else s.slot typ j
  next : s'.next = if s.queue s.next.other = [] then s.next else s.next.other
  currentId : s'.currentId = id

theorem Switched.mem {s s' : Sched} {trap : Trap} {id : Nat} (switched : Switched s s' trap id) :
    id ∈ s.queue s.next := by
  obtain ⟨rest, queue, _⟩ := switched.head
  rw [queue]
  exact List.mem_cons_self ..

theorem Switched.busy {s s' : Sched} {trap : Trap} {id : Nat} (switched : Switched s s' trap id) :
    s.queue s.next ≠ [] :=
  List.ne_nil_of_mem switched.mem

/-- A queue head that names no present process: the tick returns to the
interrupted code with the kernel's page table in force. -/
structure Blocked (s s' : Sched) (trap : Trap) : Prop where
  head : ∃ id rest, s.queue s.next = id :: rest ∧
    ¬(id < maxPs ∧ (s.slot s.next id).present = true)
  slots : ∀ typ j, s'.slot typ j =
    if typ = s.next.other ∧ j = s.currentId then (s.slot typ j).saving typ trap else s.slot typ j

def Sched.flip (s : Sched) : Sched :=
  if (s.queue s.next.other).isEmpty then s else { s with isDriver := decide (s.next = .normal) }

@[simp] theorem Sched.flip_slot (s : Sched) : s.flip.slot = s.slot := by
  unfold Sched.flip
  split <;> rfl

@[simp] theorem Sched.flip_queue (s : Sched) : s.flip.queue = s.queue := by
  unfold Sched.flip
  split <;> rfl

@[simp] theorem Sched.flip_currentId (s : Sched) : s.flip.currentId = s.currentId := by
  unfold Sched.flip
  split <;> rfl

theorem Sched.flip_next (s : Sched) :
    s.flip.next = if s.queue s.next.other = [] then s.next else s.next.other := by
  unfold Sched.flip
  simp only [List.isEmpty_iff]
  split
  · rfl
  · cases turn : s.next <;> rfl

/-- The state in which `to_driver` or `to_normal` is called. -/
def Sched.saved (s : Sched) (trap : Trap) : Sched := s.flip.save s.currentId trap s.next.other

@[simp] theorem Sched.saved_queue (s : Sched) (trap : Trap) : (s.saved trap).queue = s.queue := by
  rw [Sched.saved, Sched.save_queue, s.flip_queue]

theorem Sched.saved_next (s : Sched) (trap : Trap) :
    (s.saved trap).next = if s.queue s.next.other = [] then s.next else s.next.other := by
  rw [Sched.saved, Sched.save_next, s.flip_next]

theorem Sched.saved_slot (s : Sched) (trap : Trap) (typ : ProcType) (j : Nat) :
    (s.saved trap).slot typ j =
      if typ = s.next.other ∧ j = s.currentId then (s.slot typ j).saving typ trap else s.slot typ j := by
  rw [Sched.saved, Sched.save_slot, s.flip_slot]

/-- The save goes to the other class. -/
@[simp] theorem Sched.saved_slot_next (s : Sched) (trap : Trap) (j : Nat) :
    (s.saved trap).slot s.next j = s.slot s.next j := by
  rw [s.saved_slot, if_neg fun both => s.next.other_ne both.1.symm]

theorem prepare_picks {s : Sched} {trap : Trap} (bound : s.currentId < maxPs) (busy : s.queue s.next ≠ []) :
    prepare s trap s.next = .picks (s.saved trap) := by
  have work : (s.queue s.next).isEmpty = false := List.isEmpty_eq_false_iff.mpr busy
  simp only [prepare, bound, if_true, work, Bool.false_eq_true, if_false]
  rfl

/-- The state after a switch to the head `id` of the queue. -/
def Sched.turn (s : Sched) (trap : Trap) (id : Nat) (rest : List Nat) : Sched :=
  { s.saved trap with currentId := id }.withQueue (rest ++ [id]) s.next

theorem Sched.turn_switched (s : Sched) {trap : Trap} {id : Nat} {rest : List Nat} (bound : id < maxPs)
    (present : (s.slot s.next id).present = true) (queue : s.queue s.next = id :: rest) :
    Switched s (s.turn trap id rest) trap id where
  bound := bound
  present := present
  head := ⟨rest, queue, Sched.withQueue_queue_self _ _ _⟩
  otherQueue := by
    simp only [Sched.turn, Sched.withQueue_queue_other]
    change (s.saved trap).queue _ = _
    rw [s.saved_queue]
  slots := by
    intro typ j
    simp only [Sched.turn, Sched.withQueue_slot]
    exact s.saved_slot trap typ j
  next := by
    simp only [Sched.turn, Sched.withQueue_next]
    exact s.saved_next trap
  currentId := Sched.withQueue_currentId _ _ _

theorem switchTask_eq (s : Sched) (trap : Trap) :
    switchTask s trap =
      if s.queue .normal = [] ∧ s.queue .driver = [] then .returned s kernelPml4
      else switchClass s trap s.next (fun saved => pick saved s.next) := by
  simp only [switchTask, Sched.queue, Bool.and_eq_true, List.isEmpty_iff]
  congr 1
  unfold Sched.next
  split <;> rfl

/-- The one inversion of `switch_task`: every later argument about ticks goes
through these five cases. -/
theorem switchTask_cases (s : Sched) (trap : Trap) :
    (Idles s ∧ switchTask s trap = .returned s kernelPml4) ∨
    (maxPs ≤ s.currentId ∧ switchTask s trap = .panicked) ∨
    (∃ s', Stays s s' ∧ switchTask s trap = .returned s'
      (if (s.slot s.next.other s.currentId).tableAddr = 0 then kernelPml4
        else (s.slot s.next.other s.currentId).tableAddr)) ∨
    (∃ s', Blocked s s' trap ∧ switchTask s trap = .returned s' kernelPml4) ∨
    (∃ s' id, Switched s s' trap id ∧ switchTask s trap =
      .loaded s' (s.slot s.next id).context (s.slot s.next id).resumeTable) := by
  rw [switchTask_eq]
  split
  · rename_i empty
    exact Or.inl ⟨⟨empty.1, empty.2⟩, rfl⟩
  rename_i work
  by_cases bound : s.currentId < maxPs
  · cases queue : s.queue s.next with
    | nil =>
      have other : s.queue s.next.other ≠ [] := by
        intro none
        cases turn : s.next <;> simp only [turn, ProcType.other] at queue none <;>
          exact work (by simp only [queue, none, and_self])
      refine Or.inr (Or.inr (Or.inl ⟨s.flip, ⟨queue, other, s.flip_slot, s.flip_queue, ?_, s.flip_currentId⟩, ?_⟩))
      · rw [s.flip_next, if_neg other]
      · simp only [switchClass, prepare, bound, if_true, queue, List.isEmpty_nil]
        rfl
    | cons id rest =>
      have picks := @prepare_picks s trap bound (by rw [queue]; exact List.cons_ne_nil _ _)
      by_cases runnable : id < maxPs ∧ (s.slot s.next id).present = true
      · refine Or.inr (Or.inr (Or.inr (Or.inr ⟨s.turn trap id rest,
          id, s.turn_switched runnable.1 runnable.2 queue, ?_⟩)))
        simp only [switchClass, picks, pick, s.saved_queue, queue, runnable.1, s.saved_slot_next,
          runnable.2, if_true, finish]
        rfl
      · refine Or.inr (Or.inr (Or.inr (Or.inl
          ⟨s.saved trap, ⟨⟨id, rest, queue, runnable⟩, s.saved_slot trap⟩, ?_⟩)))
        simp only [switchClass, picks, pick, s.saved_queue, queue, s.saved_slot_next]
        split
        · rename_i inTable
          rw [if_neg (fun present => runnable ⟨inTable, present⟩)]
          rfl
        · rfl
  · refine Or.inr (Or.inl ⟨by omega, ?_⟩)
    simp only [switchClass, prepare, bound, if_false]

end ProkaKernel
