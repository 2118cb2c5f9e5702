import ProkaKernel.Isolation
import ProkaKernel.TaskTables

namespace ProkaKernel

def NormalProcess.forgetHeap (process : NormalProcess) : NormalProcess := { process with heapRange := [] }

/-- The scheduler without the heaps of the processes, at which it never looks. -/
def Sched.forgetHeaps (s : Sched) : Sched := { s with normalProcess := NormalProcess.forgetHeap ∘ s.normalProcess }

/-- How a tick ends, on changed process tables. -/
def Switch.map (f : Sched → Sched) : Switch → Switch
  | .panicked => .panicked
  | .returned s cr3 => .returned (f s) cr3
  | .loaded s context cr3 => .loaded (f s) context cr3

section
variable (s : Sched)

theorem Sched.forgetHeaps_update (i : Nat) (process : NormalProcess) :
    Sched.forgetHeaps { s with normalProcess := Function.update s.normalProcess i process } = { s.forgetHeaps with
      normalProcess := Function.update s.forgetHeaps.normalProcess i process.forgetHeap } :=
  congrArg (fun table => { s with normalProcess := table }) (Function.comp_update ..)

theorem Sched.forgetHeaps_queue (typ : ProcType) : s.forgetHeaps.queue typ = s.queue typ := by
  cases typ <;> rfl

theorem Sched.forgetHeaps_withHeap (pid : Nat) (ranges : List HeapRange) :
    (Kernel.withHeap s pid ranges).forgetHeaps = s.forgetHeaps := by
  have same : Function.update s.forgetHeaps.normalProcess pid (s.forgetHeaps.normalProcess pid) =
      s.forgetHeaps.normalProcess := Function.update_eq_self ..
  exact (s.forgetHeaps_update pid _).trans (congrArg (fun table => { s with normalProcess := table }) same)

theorem Sched.forgetHeaps_slot (typ : ProcType) (i : Nat) :
    s.forgetHeaps.slot typ i = { s.slot typ i with heapRange := (s.forgetHeaps.slot typ i).heapRange } := by
  cases typ <;> rfl

theorem Sched.forgetHeaps_save (id : Nat) (trap : Trap) (typ : ProcType) :
    (s.save id trap typ).forgetHeaps = s.forgetHeaps.save id trap typ := by
  cases typ with
  | normal => exact s.forgetHeaps_update id _
  | driver => rfl

theorem Sched.forgetHeaps_flip : s.flip.forgetHeaps = s.forgetHeaps.flip := by
  unfold flip
  rw [s.forgetHeaps_queue, show s.forgetHeaps.next = s.next from rfl]
  split <;> rfl

theorem createNormal_forgetHeaps (frame priority : Nat) :
    createNormal s.forgetHeaps frame priority = (createNormal s frame priority).map Sched.forgetHeaps := by
  unfold createNormal
  rw [Option.map_map]
  congr 1
  funext pid
  exact (Sched.forgetHeaps_update { s with normalQueue := s.normalQueue ++ [pid] } pid
    (NormalProcess.create frame priority 0x100000)).symm

theorem createDriver_forgetHeaps (frame : Nat) :
    createDriver s.forgetHeaps frame = (createDriver s frame).map Sched.forgetHeaps := by
  unfold createDriver
  rw [Option.map_map]
  rfl

theorem remove_forgetHeaps (typ : ProcType) (index : Nat) :
    remove s.forgetHeaps typ index = (remove s typ index).map Sched.forgetHeaps := by
  cases typ with
  | normal =>
    have after := Sched.forgetHeaps_update { s with normalQueue := s.normalQueue.filter fun item => item != index } index
      (s.normalProcess index).remove
    change removeNormal s.forgetHeaps index = (removeNormal s index).map _
    unfold removeNormal
    by_cases outside : maxPs ≤ index
    · rw [if_pos outside, if_pos outside]
      rfl
    · rw [if_neg outside, if_neg outside]
      by_cases present : (s.normalProcess index).present = true
      · rw [if_pos present, if_pos (show (s.forgetHeaps.normalProcess index).present = true from present)]
        exact congrArg Except.ok after.symm
      · rw [if_neg present, if_neg (show ¬(s.forgetHeaps.normalProcess index).present = true from present)]
        rfl
  | driver =>
    change removeDriver s.forgetHeaps index = (removeDriver s index).map _
    unfold removeDriver
    by_cases outside : maxPs ≤ index
    · rw [if_pos outside, if_pos outside]
      rfl
    · rw [if_neg outside, if_neg outside]
      by_cases present : (s.driverProcess index).present = true
      · rw [if_pos present, if_pos (show (s.forgetHeaps.driverProcess index).present = true from present)]
        rfl
      · rw [if_neg present, if_neg (show ¬(s.forgetHeaps.driverProcess index).present = true from present)]
        rfl

theorem pick_forgetHeaps (typ : ProcType) : finish s.forgetHeaps (pick s.forgetHeaps typ) =
    (finish s (pick s typ)).map Sched.forgetHeaps := by
  unfold pick
  rw [s.forgetHeaps_queue]
  cases s.queue typ with
  | nil => rfl
  | cons id rest =>
    dsimp only
    rw [s.forgetHeaps_slot]
    dsimp only
    split
    · split
      · cases typ <;> rfl
      · rfl
    · rfl

theorem prepare_stays {s : Sched} {trap : Trap} (bound : s.currentId < maxPs) (idle : s.queue s.next = []) :
    prepare s trap s.next = .ends (.returned s.flip
      (if (s.slot s.next.other s.currentId).tableAddr = 0 then kernelPml4
        else (s.slot s.next.other s.currentId).tableAddr)) := by
  have empty : (s.queue s.next).isEmpty = true := List.isEmpty_iff.mpr idle
  simp only [prepare, bound, if_true, empty]
  rfl

/-- A tick does the same whatever the heaps are. -/
theorem switchTask_forgetHeaps (trap : Trap) :
    switchTask s.forgetHeaps trap = (switchTask s trap).map Sched.forgetHeaps := by
  rw [switchTask_eq, switchTask_eq, s.forgetHeaps_queue, s.forgetHeaps_queue]
  split
  · rfl
  · change switchClass s.forgetHeaps trap s.next (fun saved => pick saved s.next) = _
    have saved : (s.saved trap).forgetHeaps = s.forgetHeaps.saved trap := by
      rw [Sched.saved, Sched.forgetHeaps_save, Sched.forgetHeaps_flip]
      rfl
    unfold switchClass
    by_cases bound : s.currentId < maxPs
    · by_cases busy : s.queue s.next = []
      · have second := @prepare_stays s.forgetHeaps trap bound ((s.forgetHeaps_queue s.next).trans busy)
        rw [← Sched.forgetHeaps_flip, s.forgetHeaps_slot] at second
        change prepare s.forgetHeaps trap s.next = _ at second
        rw [prepare_stays bound busy, second]
        rfl
      · have second : prepare s.forgetHeaps trap s.next = .picks (s.forgetHeaps.saved trap) :=
          prepare_picks bound ((s.forgetHeaps_queue s.next).trans_ne busy)
        rw [prepare_picks bound busy, second, ← saved]
        exact pick_forgetHeaps (s.saved trap) s.next
    · have first : prepare s trap s.next = .ends .panicked := by simp only [prepare, bound, if_false]
      have second : prepare s.forgetHeaps trap s.next = .ends .panicked := by
        simp only [prepare, show ¬s.forgetHeaps.currentId < maxPs from bound, if_false]
      rw [first, second]
      rfl

theorem step_forgetHeaps (event : Event) : step s.forgetHeaps event = (step s event).map Sched.forgetHeaps := by
  cases event with
  | createNormal frame priority => exact createNormal_forgetHeaps s frame priority
  | createDriver frame => exact createDriver_forgetHeaps s frame
  | remove typ index =>
    simp only [step, remove_forgetHeaps]
    cases remove s typ index <;> rfl
  | tick regs cr3 =>
    simp only [step, switchTask_forgetHeaps]
    cases switchTask s (.interrupting regs cr3) <;> rfl

end

/-- A world goes where its scheduler goes. -/
theorem World.step_sched (w : World) (event : Event) :
    (w.step event).map World.sched = ProkaKernel.step w.sched event := by
  cases event with
  | createNormal frame priority =>
    simp only [step, ProkaKernel.step, Option.map_map]
    cases createNormal w.sched frame priority <;> rfl
  | createDriver frame =>
    simp only [step, ProkaKernel.step, Option.map_map]
    cases createDriver w.sched frame <;> rfl
  | remove typ index =>
    simp only [step, ProkaKernel.step]
    cases remove w.sched typ index <;> rfl
  | tick regs cr3 =>
    simp only [step, ProkaKernel.step]
    cases switchTask w.sched (.interrupting regs cr3) <;> rfl

/-- The page tables of an event are known afterwards, beside those known before. -/
theorem World.step_table {w w' : World} {event : Event} (run : w.step event = some w') (t : Task) :
    w'.table t = w.table t ∨ ∃ typ, Creates event typ (w'.table t) := by
  have born {s' : Sched} {typ : ProcType} {id frame : Nat} (creates : Creates event typ frame) :
      (w.born s' typ id frame).table t = w.table t ∨ ∃ typ', Creates event typ' ((w.born s' typ id frame).table t) := by
    simp only [World.born, Function.update_apply]
    by_cases new : t = ⟨typ, id, w.clock⟩
    · rw [if_pos new]
      exact Or.inr ⟨typ, creates⟩
    · rw [if_neg new]
      exact Or.inl rfl
  cases event with
  | createNormal frame priority =>
    obtain ⟨s', id, _, rfl⟩ := step_createNormal run
    exact born (Or.inl ⟨rfl, priority, rfl⟩)
  | createDriver frame =>
    obtain ⟨s', id, _, rfl⟩ := step_createDriver run
    exact born (Or.inr ⟨rfl, rfl⟩)
  | remove typ index =>
    simp only [step] at run
    split at run <;> cases run <;> exact Or.inl rfl
  | tick regs cr3 =>
    simp only [step] at run
    split at run <;> cases run <;> exact Or.inl rfl

/-- The event of the scheduler in an event of the kernel. -/
def KernelEvent.Enacts : KernelEvent → Event → Prop
  | .create _ priority, .createNormal _ priority' => priority' = priority
  | .create _ _, .createDriver _ => True
  | .remove typ index, .remove typ' index' => typ' = typ ∧ index' = index
  | .tick regs cr3, .tick regs' cr3' => regs' = regs ∧ cr3' = cr3
  | _, _ => False

/-- The event creates a process on one of these tables, if it creates one. -/
def Event.On (tables : Set Nat) : Event → Prop
  | .createNormal frame _ => ∃ root ∈ tables, frame = root * 4096
  | .createDriver frame => ∃ root ∈ tables, frame = root * 4096
  | _ => True

namespace Kernel
open Prog

section
variable {R : Set Nat} {k k' : Kernel} (mapper : PageMapper) (parse : List UInt8 → Option Image)

/-- What `create` does to the process tables and the queues. -/
theorem create_sched (data : List UInt8) (priority : Nat) (stage : Stage k.sched R [] k) :
    wp (create mapper parse data priority)
      (fun _ k' => ∃ image root, parse data = some image ∧
        (image.procType = .normal ∧ createNormal k.sched (root * 4096) priority = some k'.sched ∨
          image.procType = .driver ∧ createDriver k.sched (root * 4096) = some k'.sched))
      (fun _ _ => True) k := by
  have trail : Trail False (k.snapshot R []) k.sched R [] k := stage.trail
  refine wp_bind (wp_orFail (fun image parsed => ?_) fun _ => trivial)
  split
  · refine wp_bind ((loadSections_wp data image.sections trail).mono ?_ fun _ _ _ => trivial)
    rintro infos k1 ⟨trail1, loaded, _⟩
    refine wp_bind ((makeSpace_wp mapper image.procType trail1 loaded).mono ?_ fun _ _ _ => trivial)
    rintro root k2 ⟨trail2, _⟩
    refine wp_bind (wp_read (wp_bind (wp_unwrap fun s' run => wp_write ⟨image, root, parsed, ?_⟩)))
    rw [trail2.stage.sched] at run
    cases typ : image.procType with
    | normal =>
      rw [typ] at run
      exact Or.inl ⟨rfl, run⟩
    | driver =>
      rw [typ] at run
      exact Or.inr ⟨rfl, run⟩
  · exact wp_fail trivial

theorem allocate_sched {root : Nat} (size : Nat) (valid : k.Valid R) (member : root ∈ R) :
    wp (allocate mapper (root * 4096) size) (fun _ k' => k'.sched.forgetHeaps = k.sched.forgetHeaps)
      (fun _ k' => k'.sched.forgetHeaps = k.sched.forgetHeaps) k := by
  unfold allocate
  rw [Nat.mul_div_cancel root (by decide)]
  split
  · exact wp_fail rfl
  · refine wp_bind (wp_read ?_)
    split
    · exact wp_fail rfl
    · refine wp_bind ((growHeap_wp mapper _ _ 0 [] valid.stage.trail member fun _ none =>
        absurd none List.not_mem_nil).mono ?_ fun _ _ trail => congrArg Sched.forgetHeaps trail.stage.sched)
      exact fun _ k1 _ => wp_bind (wp_write (wp_pure (Sched.forgetHeaps_withHeap ..)))

theorem deallocate_sched {root : Nat} (addr : Nat) (valid : k.Valid R) (member : root ∈ R) :
    wp (deallocate mapper (root * 4096) addr) (fun _ k' => k'.sched.forgetHeaps = k.sched.forgetHeaps)
      (fun _ k' => k'.sched.forgetHeaps = k.sched.forgetHeaps) k := by
  unfold deallocate
  rw [Nat.mul_div_cancel root (by decide)]
  refine wp_bind (wp_read ?_)
  split
  · exact wp_fail rfl
  · dsimp only
    split
    · exact wp_fail rfl
    · refine wp_bind ((shrinkHeap_wp mapper _ _ 0 valid.stage.trail member).mono ?_
        fun _ _ trail => congrArg Sched.forgetHeaps trail.stage.sched)
      exact fun _ k1 _ => wp_bind (wp_write (wp_pure (Sched.forgetHeaps_withHeap ..)))

/-- A creation is one of the scheduler, on a table that is new, or it leaves
the scheduler alone. -/
theorem create_enacts (data : List UInt8) (priority : Nat) (valid : k.Valid R)
    (run : (create mapper parse data priority k).map Prod.snd = some k') :
    ∃ S, Goes R S k k' ∧ (k'.sched = k.sched ∨
      ∃ event, (KernelEvent.create data priority).Enacts event ∧ event.On (S \ R) ∧
        ProkaKernel.step k.sched event = some k'.sched) := by
  obtain ⟨⟨result, k1⟩, out, rfl⟩ := Option.map_eq_some_iff.mp run
  have spec := create_wp mapper parse data priority valid.stage
  cases result with
  | error e =>
    obtain ⟨S, grows, trail⟩ := spec.error out
    exact ⟨S, valid.goes grows ⟨trail.stage, trail.edits.mono False.elim False.elim⟩, Or.inl trail.stage.sched⟩
  | ok done =>
    obtain ⟨image, root, id, infos, stackBase, parsed, spawned⟩ := spec.ok out
    have goes : Goes R (insert root R) k k1 := ⟨Set.subset_insert root R, spawned.valid valid,
      spawned.edits.mono False.elim False.elim⟩
    refine ⟨insert root R, goes, Or.inr ?_⟩
    have new : root ∈ insert root R \ R := ⟨Set.mem_insert root R, spawned.fresh⟩
    have table {id' root' : Nat} (created : Created k.sched k1.sched image.procType id' (root' * 4096)) : root' = root := by
      have queues := created.queue.symm.trans spawned.created.queue
      obtain rfl : id' = id := (List.cons.inj (List.append_cancel_left queues)).1
      have tables := congrArg Slot.tableAddr (created.slot.symm.trans spawned.created.slot)
      exact Nat.eq_of_mul_eq_mul_right (by decide) tables
    obtain ⟨image', root', parsed', listed⟩ := (create_sched mapper parse data priority valid.stage).ok out
    cases Option.some.inj (parsed.symm.trans parsed')
    rcases listed with ⟨typ, listed⟩ | ⟨typ, listed⟩
    · obtain ⟨id', created⟩ := createNormal_created listed
      cases table (typ ▸ created)
      exact ⟨.createNormal (root * 4096) priority, rfl, ⟨root, new, rfl⟩, listed⟩
    · obtain ⟨id', created⟩ := createDriver_created listed
      cases table (typ ▸ created)
      exact ⟨.createDriver (root * 4096), trivial, ⟨root, new, rfl⟩, listed⟩

/-- Every event of the kernel is one of the scheduler, or leaves all of the
scheduler but the heaps alone. -/
theorem Valid.step_enacts {tables : Set Nat} {event : KernelEvent} (valid : k.Valid R)
    (known : ∀ t ∈ tables, ∃ r ∈ R, t = r * 4096) (caller : event.By tables) (run : k.step mapper parse event = some k') :
    ∃ S, Goes R S k k' ∧
      (k'.sched.forgetHeaps = k.sched.forgetHeaps ∧ (∀ regs cr3, event ≠ .tick regs cr3) ∨
        ∃ event', event.Enacts event' ∧ event'.On (S \ R) ∧ ProkaKernel.step k.sched event' = some k'.sched) := by
  cases event with
  | create data priority =>
    obtain ⟨S, goes, same | enacts⟩ := create_enacts mapper parse data priority valid run
    · exact ⟨S, goes, Or.inl ⟨congrArg Sched.forgetHeaps same, fun _ _ tick => by cases tick⟩⟩
    · exact ⟨S, goes, Or.inr enacts⟩
  | remove typ index =>
    refine ⟨R, of_run (remove_wp mapper typ index valid) run, Or.inr ⟨.remove typ index, ⟨rfl, rfl⟩, trivial, ?_⟩⟩
    obtain ⟨⟨result, _⟩, out, rfl⟩ := Option.map_eq_some_iff.mp run
    unfold remove at out
    rw [read_bind] at out
    cases removal : ProkaKernel.remove k.sched typ index with
    | error e =>
      rw [removal] at out
      cases out
      simp only [ProkaKernel.step, removal]
    | ok s' =>
      rw [removal] at out
      cases out
      simp only [ProkaKernel.step, removal]
  | allocate userTable size =>
    obtain ⟨root, member, rfl⟩ := known userTable caller
    exact ⟨R, of_run (allocate_wp mapper size valid member) run,
      Or.inl ⟨of_run (allocate_sched mapper size valid member) run, fun _ _ tick => by cases tick⟩⟩
  | deallocate userTable addr =>
    obtain ⟨root, member, rfl⟩ := known userTable caller
    exact ⟨R, of_run (deallocate_wp mapper addr valid member) run,
      Or.inl ⟨of_run (deallocate_sched mapper addr valid member) run, fun _ _ tick => by cases tick⟩⟩
  | pagefault pml4 addr =>
    obtain ⟨root, member, rfl⟩ := known pml4 caller
    have sched : k'.sched = k.sched := of_run ((pagefault_trail mapper addr valid.stage member).mono
      (fun _ _ trail => trail.stage.sched) fun _ _ => id) run
    exact ⟨R, of_run (pagefault_wp mapper addr valid member) run,
      Or.inl ⟨congrArg Sched.forgetHeaps sched, fun _ _ tick => by cases tick⟩⟩
  | tick regs cr3 =>
    obtain ⟨s', ticked, rfl⟩ := Option.map_eq_some_iff.mp run
    exact ⟨R, ⟨fun _ => id, ⟨valid.stage.resched, valid.slots.tick ticked⟩, .refl⟩,
      Or.inr ⟨.tick regs cr3, ⟨rfl, rfl⟩, trivial, ticked⟩⟩

/-- The world is in the state of the kernel's scheduler, and all its page tables
are address spaces of the kernel. -/
structure Refines (w : World) (k : Kernel) (R : Set Nat) : Prop where
  sched : w.sched = k.sched.forgetHeaps
  tables : ∀ t, w.table t ≠ 0 → ∃ r ∈ R, w.table t = r * 4096

theorem Refines.fresh {w : World} {S : Set Nat} {frame : Nat} (refines : Refines w k R) (valid : k'.Valid S)
    (reserved : k'.alloc.reserved = usedPage) (new : ∃ root ∈ S \ R, frame = root * 4096) : w.Fresh frame := by
  obtain ⟨root, ⟨member, unknown⟩, rfl⟩ := new
  have above := (valid.stage.owns.taken_root member).2
  rw [reserved, usedPage] at above
  refine ⟨by omega, by rw [kernelPml4]; omega, fun t same => ?_⟩
  obtain ⟨r, old, table⟩ := refines.tables t (by omega)
  have equal : r = root := by omega
  exact unknown (equal ▸ old)

/-- The world follows an event of the scheduler. -/
theorem Refines.step {w : World} {S : Set Nat} {event : Event} (refines : Refines w k R) (goes : Goes R S k k')
    (reserved : k'.alloc.reserved = usedPage) (new : event.On (S \ R))
    (run : ProkaKernel.step k.sched event = some k'.sched) :
    ∃ w', w.FreshTables event ∧ w.step event = some w' ∧ Refines w' k' S := by
  have forgotten := step_forgetHeaps k.sched event
  rw [run, ← refines.sched, ← w.step_sched event] at forgotten
  obtain ⟨w', stepped, sched⟩ := Option.map_eq_some_iff.mp forgotten
  refine ⟨w', ?_, stepped, sched, fun t nonzero => ?_⟩
  · cases event with
    | createNormal frame priority => exact refines.fresh goes.valid reserved new
    | createDriver frame => exact refines.fresh goes.valid reserved new
    | remove | tick => trivial
  · rcases World.step_table stepped t with same | ⟨typ, ⟨_, _, rfl⟩ | ⟨_, rfl⟩⟩
    · rw [same] at nonzero ⊢
      obtain ⟨r, old, table⟩ := refines.tables t nonzero
      exact ⟨r, goes.grows old, table⟩
    · obtain ⟨r, ⟨member, _⟩, table⟩ := new
      exact ⟨r, member, table⟩
    · obtain ⟨r, ⟨member, _⟩, table⟩ := new
      exact ⟨r, member, table⟩

theorem Reach.refines {map : MemoryMap} {start : Kernel} {tables : Set Nat} (boot : start.Boot map)
    (reach : Reach mapper parse start k tables) :
    ∃ R w, Goes ∅ R start k ∧ (∀ t ∈ tables, ∃ r ∈ R, t = r * 4096) ∧ World.Reach World.FreshTables w ∧
      Refines w k R := by
  induction reach with
  | boot =>
    refine ⟨∅, {}, boot.valid.refl, fun _ none => none.elim, .boot, ?_, fun t nonzero => absurd rfl nonzero⟩
    rw [boot.sched]
    rfl
  | @next k k' tables event _ caller run ih =>
    obtain ⟨R, w, before, known, world, refines⟩ := ih
    obtain ⟨S, goes, part⟩ := before.valid.step_enacts mapper parse known caller run
    have after : Goes ∅ S start k' := ⟨Set.empty_subset S, goes.valid, before.edits.trans goes.edits⟩
    have reserved : k'.alloc.reserved = usedPage :=
      (after.edits.reserved boot.valid.stage.owns).trans boot.reserved
    have tables' := goes.valid.known_tables goes.grows known
    rcases part with ⟨same, _⟩ | ⟨event', _, new, stepped⟩
    · refine ⟨S, w, after, tables', world, refines.sched.trans same.symm, fun t nonzero => ?_⟩
      obtain ⟨r, old, table⟩ := refines.tables t nonzero
      exact ⟨r, goes.grows old, table⟩
    · obtain ⟨w', fresh, moved, refines'⟩ := refines.step goes reserved new stepped
      exact ⟨S, w', after, tables', world.next fresh moved, refines'⟩

end

/-- The kernel refines its scheduler: every run of the kernel, with all memory
and heaps, is a run of the scheduler alone in which every process gets a page
table of its own, and every later tick ends on both in the same way. -/
theorem kernel_refines_scheduler (mapper : PageMapper) (parse : List UInt8 → Option Image) {map : MemoryMap}
    {start k : Kernel} {tables : Set Nat} (boot : start.Boot map) (reach : Reach mapper parse start k tables) :
    ∃ w, World.Reach World.FreshTables w ∧ w.sched = k.sched.forgetHeaps ∧
      ∀ trap, switchTask w.sched trap = (switchTask k.sched trap).map Sched.forgetHeaps := by
  obtain ⟨R, w, _, _, world, refines⟩ := reach.refines mapper parse boot
  exact ⟨w, world, refines.sched, fun trap => by rw [refines.sched, switchTask_forgetHeaps]⟩

/-- A process that is created on the small machine, takes a page and is loaded. -/
theorem kernel_refines_scheduler_first_tick :
    ∃ k tables, Reach FourLevel.mapper flatParse smallKernel k tables ∧ k.sched.currentId = 0 ∧
      (k.sched.normalProcess 0).heapRange ≠ [] ∧ ∃ w, World.Reach World.FreshTables w ∧ w.sched = k.sched.forgetHeaps := by
  have run : ((smallKernel.step FourLevel.mapper flatParse (.create [0x90] 0)).bind fun k1 =>
      (k1.step FourLevel.mapper flatParse (.allocate (0x1e02 * 4096) 1)).bind fun k2 =>
      (k2.step FourLevel.mapper flatParse (.tick {} kernelPml4)).map fun k3 =>
        ((k1.sched.slot .normal 0).tableAddr, k3.sched.currentId, (k3.sched.normalProcess 0).heapRange)) =
      some (0x1e02 * 4096, 0, [⟨0x180000000, 0x180001000⟩]) := by
    decide +kernel
  obtain ⟨k1, first, run⟩ := Option.bind_eq_some_iff.mp run
  obtain ⟨k2, second, run⟩ := Option.bind_eq_some_iff.mp run
  obtain ⟨k3, third, same⟩ := Option.map_eq_some_iff.mp run
  simp only [Prod.mk.injEq] at same
  obtain ⟨table, current, heap⟩ := same
  have caller : 0x1e02 * 4096 ∈ ∅ ∪ k1.tables := Or.inr ⟨by decide, .normal, 0, table⟩
  have reach := ((Reach.boot.next (by exact trivial) first).next (by exact caller) second).next (by exact trivial) third
  obtain ⟨w, world, sched, _⟩ := kernel_refines_scheduler FourLevel.mapper flatParse smallKernel_boot reach
  exact ⟨k3, _, reach, current, by rw [heap]; exact List.cons_ne_nil _ _, w, world, sched⟩

end Kernel

end ProkaKernel
