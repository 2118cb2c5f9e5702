import ProkaKernel.CreateSteps

namespace ProkaKernel

/-- Every table named by a slot is a root for this kind of process, and no two
slots name the same. -/
structure Slots (s : Sched) (R : ProcType → Set Nat) : Prop where
  rooted : ∀ typ i, (s.slot typ i).tableAddr ≠ 0 → ∃ r ∈ R typ, (s.slot typ i).tableAddr = r * 4096
  distinct : ∀ typ i typ' i', (s.slot typ i).tableAddr ≠ 0 → (s.slot typ i).tableAddr = (s.slot typ' i').tableAddr →
    typ = typ' ∧ i = i'
  present : ∀ typ i, (s.slot typ i).present = true → (s.slot typ i).tableAddr ≠ 0

section
variable {s s' : Sched} {R R' : ProcType → Set Nat}

theorem Slots.boot : Slots {} R where
  rooted typ i nonzero := by cases typ <;> exact absurd rfl nonzero
  distinct typ i _ _ nonzero := by cases typ <;> exact absurd rfl nonzero
  present typ i present := by cases typ <;> cases present

theorem Slots.congr (slots : Slots s R) (same : ∀ typ i, (s'.slot typ i).tableAddr = (s.slot typ i).tableAddr)
    (present : ∀ typ i, (s'.slot typ i).present = true → (s.slot typ i).present = true) : Slots s' R where
  rooted typ i := same typ i ▸ slots.rooted typ i
  distinct typ i typ' i' := same typ i ▸ same typ' i' ▸ slots.distinct typ i typ' i'
  present typ i here := same typ i ▸ slots.present typ i (present typ i here)

theorem Slots.created {typ : ProcType} {id root : Nat} (slots : Slots s R) (created : Created s s' typ id (root * 4096))
    (grows : ∀ typ', R typ' ⊆ R' typ') (fresh : ∀ typ', root ∉ R typ') (member : root ∈ R' typ) (positive : root ≠ 0) :
    Slots s' R' := by
  have new : (s'.slot typ id).tableAddr = root * 4096 := by rw [created.slot]; rfl
  have apart (typ' : ProcType) (i : Nat) (nonzero : (s.slot typ' i).tableAddr ≠ 0) :
      (s.slot typ' i).tableAddr ≠ root * 4096 := by
    obtain ⟨r, member, table⟩ := slots.rooted typ' i nonzero
    intro same
    have equal : r = root := by omega
    exact fresh typ' (equal ▸ member)
  refine ⟨fun typ1 i1 nonzero => ?_, fun typ1 i1 typ2 i2 nonzero same => ?_, fun typ1 i1 present => ?_⟩
  · by_cases here : typ1 = typ ∧ i1 = id
    · obtain ⟨rfl, rfl⟩ := here
      exact ⟨root, member, new⟩
    · rw [created.others typ1 i1 here] at nonzero ⊢
      obtain ⟨r, old, table⟩ := slots.rooted typ1 i1 nonzero
      exact ⟨r, grows typ1 old, table⟩
  · by_cases here1 : typ1 = typ ∧ i1 = id
    · obtain ⟨rfl, rfl⟩ := here1
      by_cases here2 : typ2 = typ1 ∧ i2 = i1
      · exact ⟨here2.1.symm, here2.2.symm⟩
      · rw [new, created.others typ2 i2 here2] at same
        exact absurd same.symm (apart typ2 i2 (by omega))
    · rw [created.others typ1 i1 here1] at nonzero same
      by_cases here2 : typ2 = typ ∧ i2 = id
      · obtain ⟨rfl, rfl⟩ := here2
        exact absurd (same.trans new) (apart typ1 i1 nonzero)
      · exact slots.distinct typ1 i1 typ2 i2 nonzero (same.trans (by rw [created.others typ2 i2 here2]))
  · by_cases here : typ1 = typ ∧ i1 = id
    · obtain ⟨rfl, rfl⟩ := here
      rw [new]
      omega
    · rw [created.others typ1 i1 here] at present ⊢
      exact slots.present typ1 i1 present

theorem Slots.removed {typ : ProcType} {id : Nat} (slots : Slots s R) (removed : Removed s s' typ id) : Slots s' R :=
  slots.congr (fun typ1 i1 => (removed.slot_kept typ1 i1).2.1) fun typ1 i1 => (removed.slot_kept typ1 i1).2.2

theorem Slots.withHeap (slots : Slots s R) (pid : Nat) (ranges : List HeapRange) :
    Slots (Kernel.withHeap s pid ranges) R := by
  have same (typ : ProcType) (i : Nat) :
      (Kernel.withHeap s pid ranges).slot typ i =
        { s.slot typ i with heapRange := ((Kernel.withHeap s pid ranges).slot typ i).heapRange } := by
    rw [Kernel.withHeap, Sched.slot_update_normal]
    split
    · rename_i here
      rw [here.1, here.2]
      rfl
    · rfl
  refine slots.congr (fun typ i => ?_) fun typ i present => ?_
  · rw [same]
  · rw [same] at present
    exact present

theorem Slots.mono (slots : Slots s R) (grows : ∀ typ, R typ ⊆ R' typ) : Slots s R' where
  rooted typ i nonzero := by
    obtain ⟨r, member, table⟩ := slots.rooted typ i nonzero
    exact ⟨r, grows typ member, table⟩
  distinct := slots.distinct
  present := slots.present

/-- A tick keeps the tables, the presence and the heaps of all slots. -/
theorem tick_slot_kept {regs : Context} {cr3 : Nat} (run : step s (.tick regs cr3) = some s') (typ : ProcType) (j : Nat) :
    (s'.slot typ j).tableAddr = (s.slot typ j).tableAddr ∧ (s'.slot typ j).present = (s.slot typ j).present ∧
      (s'.slot typ j).heapRange = (s.slot typ j).heapRange := by
  have saving {s1 : Sched} (same : ∀ typ j, s1.slot typ j = if typ = s.next.other ∧ j = s.currentId
      then (s.slot typ j).saving typ (.interrupting regs cr3) else s.slot typ j) :
      (s1.slot typ j).tableAddr = (s.slot typ j).tableAddr ∧ (s1.slot typ j).present = (s.slot typ j).present ∧
        (s1.slot typ j).heapRange = (s.slot typ j).heapRange := by
    rw [same]
    split <;> exact ⟨rfl, rfl, rfl⟩
  simp only [step] at run
  rcases switchTask_cases s (.interrupting regs cr3) with
    ⟨_, out⟩ | ⟨_, out⟩ | ⟨s1, stays, out⟩ | ⟨s1, blocked, out⟩ | ⟨s1, id, switched, out⟩
  all_goals rw [out] at run; cases run
  · exact ⟨rfl, rfl, rfl⟩
  · rw [stays.slots]
    exact ⟨rfl, rfl, rfl⟩
  · exact saving blocked.slots
  · exact saving switched.slots

theorem Slots.tick {regs : Context} {cr3 : Nat} (slots : Slots s R) (run : step s (.tick regs cr3) = some s') :
    Slots s' R :=
  slots.congr (fun typ i => (tick_slot_kept run typ i).1) fun typ i present =>
    (tick_slot_kept run typ i).2.1.symm.trans present

end

/-- The address spaces for one kind of process. -/
def spacesFor (m : Mem) (R : Set Nat) (typ : ProcType) : Set Nat := { r | r ∈ R ∧ Kernel.UpperHalf typ m r }

/-- What holds between any two kernel calls. -/
structure Kernel.Valid (k : Kernel) (R : Set Nat) : Prop where
  stage : Stage k.sched R [] k
  slots : Slots k.sched (spacesFor k.mem R)

/-- A successful creation: a process on a fresh level-4 table, with the image
in its address space. All frames were free before. -/
structure Kernel.Spawned (R : Set Nat) (data : List UInt8) (image : Image) (root id : Nat) (infos : List SectionData)
    (stackBase : Nat) (k k' : Kernel) : Prop where
  created : Created k.sched k'.sched image.procType id (root * 4096)
  fresh : root ∉ R
  stage : Stage k'.sched (insert root R) [] k'
  placed : Placed data image.sections k'.mem root infos stackBase
  edits : Edits False False (k.snapshot R []) (k'.snapshot (insert root R) [])
  unused : ∀ f ∈ root :: dataFrames infos stackBase, ¬FrameAlloc.Used k.alloc.bitmap f
  upper : UpperHalf image.procType k'.mem root

/-- A kernel call that may add address spaces, with its edits of the memory. -/
structure Kernel.Goes (R R' : Set Nat) (k k' : Kernel) : Prop where
  grows : R ⊆ R'
  valid : k'.Valid R'
  edits : Edits True False (k.snapshot R []) (k'.snapshot R' [])

/-- Edits keep the upper halves of all address spaces. -/
theorem Kernel.Valid.spacesFor_subset {back device : Prop} {k k' : Kernel} {R R' : Set Nat} (valid : k.Valid R)
    (grows : R ⊆ R') (edits : Edits back device (k.snapshot R []) (k'.snapshot R' [])) (typ : ProcType) :
    spacesFor k.mem R typ ⊆ spacesFor k'.mem R' typ := by
  intro r space
  have upper := space.2.edits edits valid.stage.owns space.1
  exact ⟨grows space.1, upper⟩

theorem Kernel.Valid.goes {k k' : Kernel} {R R' : Set Nat} (valid : k.Valid R) (grows : R ⊆ R')
    (trail : Trail True (k.snapshot R []) k.sched R' [] k') : Kernel.Goes R R' k k' := by
  have sched := trail.stage.sched
  have slots := valid.slots.mono (valid.spacesFor_subset grows trail.edits)
  exact ⟨grows, ⟨sched ▸ trail.stage, sched ▸ slots⟩, trail.edits⟩

theorem Kernel.Valid.refl {k : Kernel} {R : Set Nat} (valid : k.Valid R) : Kernel.Goes R R k k :=
  ⟨fun _ => id, valid, .refl⟩

theorem Stage.resched {s s' : Sched} {R : Set Nat} {pend : List Nat} {k : Kernel} (stage : Stage s R pend k) :
    Stage s' R pend { k with sched := s' } :=
  ⟨stage.owns, stage.nodup, rfl, stage.reserved⟩

theorem Trail.resched {back : Prop} {c : Snapshot} {s s' : Sched} {R : Set Nat} {pend : List Nat} {k : Kernel}
    (trail : Trail back c s R pend k) : Trail back c s' R pend { k with sched := s' } :=
  ⟨trail.stage.resched, trail.edits⟩

theorem Stage.root_pos {s : Sched} {R : Set Nat} {pend : List Nat} {k : Kernel} {root : Nat} (stage : Stage s R pend k)
    (member : root ∈ R) : root ≠ 0 := by
  have above := (stage.owns.taken_root member).2
  have positive := stage.reserved
  omega

namespace Kernel
open Prog

variable {R : Set Nat} {k : Kernel} (mapper : PageMapper) (parse : List UInt8 → Option Image)

theorem enroll_wp {s : Sched} (typ : ProcType) (root priority : Nat) (sched : k.sched = s) :
    wp (enroll typ root priority) (fun _ k' => ∃ s' id, Created s s' typ id (root * 4096) ∧ k' = { k with sched := s' })
      (fun _ _ => False) k := by
  subst sched
  refine wp_bind (wp_read (wp_bind (wp_unwrap fun s' run => wp_write ?_)))
  cases typ with
  | normal =>
    obtain ⟨id, created⟩ := createNormal_created run
    exact ⟨s', id, created, rfl⟩
  | driver =>
    obtain ⟨id, created⟩ := createDriver_created run
    exact ⟨s', id, created, rfl⟩

theorem create_wp (data : List UInt8) (priority : Nat) (stage : Stage k.sched R [] k) :
    wp (create mapper parse data priority)
      (fun _ k' => ∃ image root id infos stackBase, parse data = some image ∧
        Spawned R data image root id infos stackBase k k')
      (fun _ k' => ∃ R', R ⊆ R' ∧ Trail False (k.snapshot R []) k.sched R' [] k') k := by
  refine wp_bind (wp_orFail (fun image parsed => ?_) fun _ => ⟨R, fun _ => id, stage.trail⟩)
  split
  · refine wp_bind ((loadSections_wp data image.sections stage.trail).mono ?_ fun _ _ failed => ⟨R, fun _ => id, failed⟩)
    rintro infos k1 ⟨trail1, loaded, _⟩
    refine wp_bind ((makeSpace_wp mapper image.procType trail1 loaded).mono ?_ fun _ _ => id)
    rintro root k2 ⟨trail2, stackBase, space⟩
    refine (enroll_wp image.procType root priority trail2.stage.sched).mono ?_ fun _ _ => False.elim
    rintro _ _ ⟨s', id, created, rfl⟩
    refine ⟨image, root, id, infos, stackBase, parsed, created, space.fresh, trail2.stage.resched, space.placed,
      trail2.edits, fun f member before => ?_, space.upper⟩
    have still := trail1.edits.used stage.owns before
    rcases List.mem_append.mp (show f ∈ [root, stackBase, stackBase + 1] ++ infos.flatMap SectionData.frames from member)
      with new | loadedFrame
    · exact space.unused f new still
    · rcases trail1.edits.fresh stage.owns loadedFrame with none | unused
      · exact List.not_mem_nil none
      · exact unused before
  · exact wp_fail ⟨R, fun _ => id, stage.trail⟩

theorem Spawned.valid {data : List UInt8} {image : Image} {root id stackBase : Nat} {infos : List SectionData}
    {k' : Kernel} (valid : k.Valid R) (spawned : Spawned R data image root id infos stackBase k k') :
    k'.Valid (insert root R) := by
  have member := Set.mem_insert root R
  exact ⟨spawned.stage, valid.slots.created spawned.created
    (valid.spacesFor_subset (Set.subset_insert root R) spawned.edits) (fun _ space => spawned.fresh space.1)
    ⟨member, spawned.upper⟩ (spawned.stage.root_pos member)⟩

theorem create_goes (data : List UInt8) (priority : Nat) (valid : k.Valid R) :
    wp (create mapper parse data priority) (fun _ k' => ∃ R', Goes R R' k k') (fun _ k' => ∃ R', Goes R R' k k') k := by
  refine (create_wp mapper parse data priority valid.stage).mono ?_ ?_
  · rintro _ k' ⟨image, root, id, infos, stackBase, _, spawned⟩
    exact ⟨insert root R, Set.subset_insert root R, spawned.valid valid, spawned.edits.mono False.elim False.elim⟩
  · rintro _ k' ⟨R', grows, trail⟩
    exact ⟨R', valid.goes grows ⟨trail.stage, trail.edits.mono False.elim False.elim⟩⟩

theorem remove_ok {typ : ProcType} {index : Nat} (removable : (ProkaKernel.remove k.sched typ index).isOk = true) :
    ∃ k', remove mapper typ index k = some (.ok (), k') ∧ Removed k.sched k'.sched typ index := by
  unfold remove
  rw [read_bind]
  cases run : ProkaKernel.remove k.sched typ index with
  | error e =>
    rw [run] at removable
    cases removable
  | ok s' => exact ⟨_, rfl, remove_removed run⟩

theorem remove_wp (typ : ProcType) (index : Nat) (valid : k.Valid R) :
    wp (remove mapper typ index) (fun _ k' => Goes R R k k') (fun _ k' => Goes R R k k') k := by
  refine wp_bind (wp_read ?_)
  split
  · exact wp_fail valid.refl
  · rename_i s' run
    have removed := remove_removed run
    obtain ⟨r, ⟨member, _⟩, table⟩ := valid.slots.rooted typ index (valid.slots.present typ index removed.present)
    rw [table, Nat.mul_div_cancel r (by decide)]
    refine wp_bind (wp_cleanUp mapper fun m a cleaned => wp_write ?_)
    have trail := valid.stage.trail.cleanUp member cleaned
    have slots := (valid.slots.removed removed).mono (valid.spacesFor_subset (fun _ => id) trail.edits)
    exact ⟨fun _ => id, ⟨trail.stage.resched, slots⟩, trail.edits⟩

section Heap
variable {ε : Type} {c : Snapshot} {s : Sched} {root : Nat} {pend : List Nat} {E : ε → Kernel → Prop}

theorem releasePage_wp {page : Nat} (trail : Trail True c s R pend k) (member : root ∈ R) (bound : page < 2 ^ 35) :
    wp (releasePage mapper root page) (fun _ k' => Trail True c s R pend k') E k := by
  refine wp_bind (wp_unmap mapper fun frame m run => ?_)
  cases frame with
  | none =>
    cases mapper.unmap_err bound run
    exact wp_pure trail
  | some frame => exact wp_write (trail.unmap member bound run).release

theorem rollback_wp (pages : List Nat) (trail : Trail True c s R pend k) (member : root ∈ R)
    (low : ∀ page ∈ pages, page < 2 ^ 35) :
    wp (rollback mapper root pages) (fun _ k' => Trail True c s R pend k') E k := by
  induction pages generalizing k with
  | nil => exact wp_pure trail
  | cons page pages ih =>
    refine wp_bind ((releasePage_wp mapper trail member (low page (List.mem_cons_self ..))).mono ?_ fun _ _ => id)
    exact fun _ k1 trail1 => ih trail1 fun other there => low other (List.mem_cons_of_mem page there)

theorem growHeap_wp (top left i : Nat) (allocated : List Nat) (trail : Trail True c s R [] k) (member : root ∈ R)
    (low : ∀ page ∈ allocated, page < 2 ^ 35) :
    wp (growHeap mapper root top left i allocated) (fun _ k' => Trail True c s R [] k')
      (fun _ k' => Trail True c s R [] k') k := by
  have undo {k1 : Kernel} {pages : List Nat} (trail1 : Trail True c s R [] k1) (low : ∀ page ∈ pages, page < 2 ^ 35) :
      wp (rollback mapper root pages >>= fun _ => Prog.fail (-18)) (fun (_ : Unit) k' => Trail True c s R [] k')
        (fun (_ : Int) k' => Trail True c s R [] k') k1 :=
    wp_bind ((rollback_wp mapper pages trail1 member low).mono (fun _ _ trail2 => wp_fail trail2) fun _ _ => id)
  induction left generalizing k i allocated with
  | zero => exact wp_pure trail
  | succ left ih =>
    refine wp_bind (wp_allocateContiguous (fun _ => undo trail low) fun phys a run => ?_)
    have taken : Trail True c s R [phys] { k with alloc := a } := trail.allocate run
    refine wp_bind (wp_pageAt fun bound => wp_bind (wp_mapTo mapper fun done m a' mapped => ?_))
    have leaf : LeafFlags heapFlags := Or.inr (Or.inr rfl)
    cases done with
    | false => exact undo (taken.mapTo_refused member bound leaf.ok mapped).forget low
    | true =>
      refine ih (i + 1) (allocated ++ [_]) (taken.mapTo member bound leaf mapped).2 fun page there => ?_
      rcases List.mem_append.mp there with old | new
      · exact low page old
      · exact List.mem_singleton.mp new ▸ bound

theorem shrinkHeap_wp (start left i : Nat) (trail : Trail True c s R pend k) (member : root ∈ R) :
    wp (shrinkHeap mapper root start left i) (fun _ k' => Trail True c s R pend k')
      (fun _ k' => Trail True c s R pend k') k := by
  induction left generalizing k i with
  | zero => exact wp_pure trail
  | succ left ih =>
    refine wp_bind (wp_pageAt fun bound => wp_bind ((releasePage_wp mapper trail member bound).mono ?_ fun _ _ => id))
    exact fun _ k1 trail1 => ih (i + 1) trail1

/-- The end of a heap call, which writes the new ranges. -/
theorem Valid.goes_withHeap {k' : Kernel} (valid : k.Valid R) (trail : Trail True (k.snapshot R []) k.sched R [] k')
    (pid : Nat) (ranges : List HeapRange) : Goes R R k { k' with sched := withHeap k.sched pid ranges } := by
  have slots := (valid.slots.withHeap pid ranges).mono (valid.spacesFor_subset (fun _ => id) trail.edits)
  exact ⟨fun _ => id, ⟨trail.stage.resched, slots⟩, trail.edits⟩

theorem allocate_wp (size : Nat) (valid : k.Valid R) (member : root ∈ R) :
    wp (allocate mapper (root * 4096) size) (fun _ k' => Goes R R k k') (fun _ k' => Goes R R k k') k := by
  unfold allocate
  rw [Nat.mul_div_cancel root (by decide)]
  split
  · exact wp_fail valid.refl
  · refine wp_bind (wp_read ?_)
    split
    · exact wp_fail valid.refl
    · refine wp_bind ((growHeap_wp mapper _ _ 0 [] valid.stage.trail member fun _ none =>
        absurd none List.not_mem_nil).mono ?_ fun _ _ trail => valid.goes (fun _ => id) trail)
      exact fun _ k1 trail => wp_bind (wp_write (wp_pure (valid.goes_withHeap trail ..)))

theorem deallocate_wp (addr : Nat) (valid : k.Valid R) (member : root ∈ R) :
    wp (deallocate mapper (root * 4096) addr) (fun _ k' => Goes R R k k') (fun _ k' => Goes R R k k') k := by
  unfold deallocate
  rw [Nat.mul_div_cancel root (by decide)]
  refine wp_bind (wp_read ?_)
  split
  · exact wp_fail valid.refl
  · dsimp only
    split
    · exact wp_fail valid.refl
    · refine wp_bind ((shrinkHeap_wp mapper _ _ 0 valid.stage.trail member).mono ?_
        fun _ _ trail => valid.goes (fun _ => id) trail)
      exact fun _ k1 trail => wp_bind (wp_write (wp_pure (valid.goes_withHeap trail ..)))

/-- A page fault takes nothing away. -/
theorem pagefault_trail (addr : Nat) (stage : Stage k.sched R [] k) (member : root ∈ R) :
    wp (pagefault mapper (root * 4096) addr) (fun _ k' => Trail False (k.snapshot R []) k.sched R [] k') E k := by
  unfold pagefault
  rw [Nat.mul_div_cancel root (by decide)]
  refine wp_bind (wp_read (wp_bind (wp_unwrap fun process _ => ?_)))
  split
  · refine wp_bind (wp_allocateContiguous (fun _ => wp_pure stage.trail) fun frame a run => ?_)
    have taken : Trail False (k.snapshot R []) k.sched R [frame] { k with alloc := a } := stage.trail.allocate run
    refine wp_bind (wp_pageAt fun bound => wp_bind (wp_mapTo mapper fun done m a' mapped => ?_))
    cases done with
    | false => exact wp_abort
    | true => exact wp_pure (taken.mapTo member bound (Or.inr (Or.inr rfl)) mapped).2
  · exact wp_pure stage.trail

theorem pagefault_wp (addr : Nat) (valid : k.Valid R) (member : root ∈ R) :
    wp (pagefault mapper (root * 4096) addr) (fun _ k' => Goes R R k k') E k := by
  refine (pagefault_trail mapper addr valid.stage member).mono (fun _ k' trail => ?_) fun _ _ => id
  exact valid.goes (fun _ => id) ⟨trail.stage, trail.edits.mono False.elim False.elim⟩

end Heap

/-- A property that a program establishes however it ends. -/
theorem of_run {ε α : Type} {x : Prog Kernel ε α} {P : Kernel → Prop} {k k' : Kernel}
    (post : wp x (fun _ => P) (fun _ => P) k) (run : (x k).map Prod.snd = some k') : P k' := by
  obtain ⟨⟨result, _⟩, out, rfl⟩ := Option.map_eq_some_iff.mp run
  cases result with
  | ok a => exact post.ok out
  | error e => exact post.error out

/-- Every event keeps the address spaces apart, and none of them is dropped. -/
theorem Valid.step {tables : Set Nat} {event : KernelEvent} {k' : Kernel} (valid : k.Valid R)
    (known : ∀ t ∈ tables, ∃ r ∈ R, t = r * 4096) (caller : event.By tables)
    (run : k.step mapper parse event = some k') : ∃ R', Goes R R' k k' := by
  cases event with
  | create data priority =>
    exact of_run (P := fun k1 => ∃ R', Goes R R' k k1) (create_goes mapper parse data priority valid) run
  | remove typ index => exact ⟨R, of_run (remove_wp mapper typ index valid) run⟩
  | allocate userTable size =>
    obtain ⟨root, member, rfl⟩ := known userTable caller
    exact ⟨R, of_run (allocate_wp mapper size valid member) run⟩
  | deallocate userTable addr =>
    obtain ⟨root, member, rfl⟩ := known userTable caller
    exact ⟨R, of_run (deallocate_wp mapper addr valid member) run⟩
  | pagefault pml4 addr =>
    obtain ⟨root, member, rfl⟩ := known pml4 caller
    exact ⟨R, of_run (pagefault_wp mapper addr valid member) run⟩
  | tick regs cr3 =>
    obtain ⟨s', ticked, rfl⟩ := Option.map_eq_some_iff.mp run
    exact ⟨R, fun _ => id, ⟨valid.stage.resched, valid.slots.tick ticked⟩, .refl⟩

theorem Boot.reserved {map : MemoryMap} (boot : k.Boot map) : k.alloc.reserved = usedPage := by
  obtain ⟨_, _, _, init, reach⟩ := boot.alloc
  have start := FrameAlloc.init_initial init
  exact (reach.tracks start).reserved.trans start.reserved

theorem Boot.valid {map : MemoryMap} (boot : k.Boot map) : k.Valid ∅ := by
  obtain ⟨initial, live, freed, init, reach⟩ := boot.alloc
  have start := FrameAlloc.init_initial init
  have tracks := reach.tracks start
  have reserved := boot.reserved
  refine ⟨⟨⟨⟨?_, ?_, ?_⟩, ⟨fun q below => ?_, ?_⟩, ?_, ?_⟩, List.nodup_nil, rfl, ?_⟩, boot.sched ▸ Slots.boot⟩
  · rintro _ _ _ _ _ none
    cases none
  · rintro _ ⟨_, _, none, _⟩
    cases none
  · rintro _ none
    cases none
  · rw [tracks.reserved, tracks.selfUsedPage] at below
    exact (tracks.used q).mpr (Or.inl ((start.used q).mpr (Or.inr (Or.inr below))))
  · rw [tracks.reserved, tracks.selfUsedPage]
    exact tracks.pos
  · rw [reserved]
    exact boot.upper
  · rintro _ none
    cases none
  · rw [reserved]
    decide

/-- The tables of all processes so far are known roots. -/
theorem Valid.known_tables {R' : Set Nat} {k' : Kernel} {tables : Set Nat} (valid : k'.Valid R') (grows : R ⊆ R')
    (known : ∀ t ∈ tables, ∃ r ∈ R, t = r * 4096) : ∀ t ∈ tables ∪ k'.tables, ∃ r ∈ R', t = r * 4096 := by
  rintro t (old | ⟨nonzero, typ, i, rfl⟩)
  · obtain ⟨r, there, table⟩ := known t old
    exact ⟨r, grows there, table⟩
  · obtain ⟨r, space, table⟩ := valid.slots.rooted typ i nonzero
    exact ⟨r, space.1, table⟩

/-- Every run leads to a valid state, by edits of the memory. -/
theorem Reach.goes {map : MemoryMap} {start : Kernel} {tables : Set Nat} (boot : start.Boot map)
    (reach : Reach mapper parse start k tables) :
    ∃ R, Goes ∅ R start k ∧ ∀ t ∈ tables, ∃ r ∈ R, t = r * 4096 := by
  induction reach with
  | boot => exact ⟨∅, boot.valid.refl, fun _ none => nomatch none⟩
  | next _ caller run ih =>
    obtain ⟨R, before, known⟩ := ih
    obtain ⟨R', goes⟩ := before.valid.step mapper parse known caller run
    exact ⟨R', ⟨Set.empty_subset R', goes.valid, before.edits.trans goes.edits⟩, goes.valid.known_tables goes.grows known⟩

theorem Reach.valid {map : MemoryMap} {start : Kernel} {tables : Set Nat} (boot : start.Boot map)
    (reach : Reach mapper parse start k tables) : ∃ R, k.Valid R ∧ ∀ t ∈ tables, ∃ r ∈ R, t = r * 4096 := by
  obtain ⟨R, goes, known⟩ := reach.goes mapper parse boot
  exact ⟨R, goes.valid, known⟩

end Kernel

end ProkaKernel
