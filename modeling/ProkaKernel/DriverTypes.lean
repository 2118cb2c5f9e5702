import ProkaKernel.DeviceMemory

namespace ProkaKernel

/-- What a driver is for (`DrvType`). -/
inductive DrvType
  | graphics
  | invalid
  deriving DecidableEq

/-- The conversion from the number that a driver passes. -/
def DrvType.ofNumber (n : UInt64) : DrvType := if n = 0 then .graphics else .invalid

/-- An entry of `DRVTYPE_INDEX`. -/
structure DrvTypeTable where
  id : Nat
  typ : DrvType
  deriving DecidableEq

/-- The kernel with `DRVTYPE_INDEX`. -/
structure IndexedKernel where
  kernel : Kernel
  index : List DrvTypeTable := []

namespace IndexedKernel

section
variable (mapper : DeviceMapper) (parse : List UInt8 → Option Image)

/-- `driver_type_reg`; `bars` are the registers of the devices of that type.
`None` is a panic. -/
def driverTypeReg (t : IndexedKernel) (arg1 : UInt64) (did : Nat) (bars : List (Option Bar)) : Option IndexedKernel :=
  let typ := DrvType.ofNumber arg1
  if typ = .invalid then some t
  else
    ((Kernel.mapDevices mapper ((t.kernel.sched.driverProcess did).tableAddr / 4096) bars :
      Prog Kernel Error Unit) t.kernel).map fun out => ⟨out.2, t.index ++ [⟨did, typ⟩]⟩

/-- `coredrv` with the number of `RegDriverType`. -/
def coredrv (t : IndexedKernel) (pml4 : Nat) (arg1 : UInt64) (bars : List (Option Bar)) : Option IndexedKernel :=
  match Kernel.coredrvProcess t.kernel.sched pml4 with
  | none => some t
  | some did => t.driverTypeReg mapper arg1 did bars

/-- The table of the driver that an event removes. -/
def removedBy (s : Sched) : KernelEvent → Set Nat
  | .remove .driver index =>
    { table | index < maxPs ∧ (s.driverProcess index).present = true ∧ table = (s.driverProcess index).tableAddr }
  | _ => ∅

/-- The entry that a call adds, with the table of the driver that makes it. -/
def madeBy (s : Sched) (pml4 : Nat) (arg1 : UInt64) : List (Nat × DrvTypeTable) :=
  match Kernel.coredrvProcess s pml4 with
  | none => []
  | some did => if DrvType.ofNumber arg1 = .invalid then [] else [(pml4, ⟨did, DrvType.ofNumber arg1⟩)]

/-- All runs with registrations of driver types: the tables of all processes so
far, the entries made with the table of the driver that made each, and the
tables of the drivers removed. -/
inductive Reach (start : Kernel) : IndexedKernel → Set Nat → List (Nat × DrvTypeTable) → Set Nat → Prop
  | boot : Reach start ⟨start, []⟩ ∅ [] ∅
  | kernel {t k tables made removed event} : Reach start t tables made removed → event.By tables →
      t.kernel.step mapper.toPageMapper parse event = some k →
      Reach start ⟨k, t.index⟩ (tables ∪ k.tables) made (removed ∪ removedBy t.kernel.sched event)
  | coredrv {t t' tables made removed pml4 arg1 bars} : Reach start t tables made removed → pml4 ∈ tables →
      t.coredrv mapper pml4 arg1 bars = some t' →
      Reach start t' (tables ∪ t'.kernel.tables) (made ++ madeBy t.kernel.sched pml4 arg1) removed

end

/-- Every entry of the index names a slot in which the driver that made the
entry is present. -/
def Consistent (t : IndexedKernel) (made : List (Nat × DrvTypeTable)) : Prop :=
  t.index = made.map Prod.snd ∧ ∀ entry ∈ made, (t.kernel.sched.slot .driver entry.2.id).present = true ∧
    (t.kernel.sched.slot .driver entry.2.id).tableAddr = entry.1

end IndexedKernel

/-- What a kernel event does to the driver table: nothing, or a driver is
created on a new page table, or one is removed. -/
inductive DriverChange (R : Set Nat) (s s' : Sched) (event : KernelEvent) : Prop
  | kept (quiet : IndexedKernel.removedBy s event = ∅)
      (same : ∀ i, (s'.slot .driver i).present = (s.slot .driver i).present ∧
        (s'.slot .driver i).tableAddr = (s.slot .driver i).tableAddr)
  | added {id root : Nat} (quiet : IndexedKernel.removedBy s event = ∅) (fresh : root ∉ R)
      (created : Created s s' .driver id (root * 4096))
  | dropped {id : Nat} (gone : IndexedKernel.removedBy s event = {(s.slot .driver id).tableAddr})
      (removed : Removed s s' .driver id)

section
variable {R : Set Nat} {s s' : Sched} {event : KernelEvent}

theorem removedBy_present {index : Nat} (bound : index < maxPs) (present : (s.slot .driver index).present = true) :
    IndexedKernel.removedBy s (.remove .driver index) = {(s.slot .driver index).tableAddr} :=
  Set.ext fun _ => ⟨fun gone => gone.2.2, fun same => ⟨bound, present, same⟩⟩

theorem removedBy_refused {typ : ProcType} {index : Nat} {e : Error} (refused : remove s typ index = .error e) :
    IndexedKernel.removedBy s (.remove typ index) = ∅ := by
  cases typ with
  | normal => rfl
  | driver =>
    refine Set.eq_empty_iff_forall_notMem.mpr fun table gone => ?_
    obtain ⟨bound, present, _⟩ := gone
    rcases remove_error refused with ⟨_, above⟩ | ⟨_, _, absent⟩
    · omega
    · exact absurd (present.symm.trans absent) (by decide)

theorem DriverChange.unchanged (quiet : IndexedKernel.removedBy s event = ∅) : DriverChange R s s event :=
  .kept quiet fun _ => ⟨rfl, rfl⟩

theorem DriverChange.of_drivers (quiet : IndexedKernel.removedBy s event = ∅)
    (same : s'.driverProcess = s.driverProcess) : DriverChange R s s' event := by
  refine .kept quiet fun i => ?_
  have slot : s'.slot .driver i = s.slot .driver i := congrArg (fun table => (table i).slot) same
  rw [slot]
  exact ⟨rfl, rfl⟩

theorem DriverChange.created {typ : ProcType} {id root : Nat} (quiet : IndexedKernel.removedBy s event = ∅)
    (fresh : root ∉ R) (created : Created s s' typ id (root * 4096)) : DriverChange R s s' event := by
  cases typ with
  | normal =>
    refine .kept quiet fun i => ?_
    rw [created.others .driver i fun both => by cases both.1]
    exact ⟨rfl, rfl⟩
  | driver => exact .added quiet fresh created

theorem DriverChange.removed {typ : ProcType} {index : Nat} (removed : Removed s s' typ index) :
    DriverChange R s s' (.remove typ index) := by
  cases typ with
  | normal =>
    refine .kept rfl fun i => ?_
    rw [removed.others .driver i fun both => by cases both.1]
    exact ⟨rfl, rfl⟩
  | driver => exact .dropped (removedBy_present removed.bound removed.present) removed

end

namespace Kernel
open Prog

section
variable {mapper : PageMapper} {parse : List UInt8 → Option Image} {R : Set Nat} {k k' : Kernel} {tables : Set Nat}
  {event : KernelEvent} {root : Nat}

theorem remove_drivers (typ : ProcType) (index : Nat) :
    wp (remove mapper typ index) (fun _ k' => DriverChange R k.sched k'.sched (.remove typ index))
      (fun _ k' => DriverChange R k.sched k'.sched (.remove typ index)) k := by
  refine wp_bind (wp_read ?_)
  split
  · rename_i refused
    exact wp_fail (.unchanged (removedBy_refused refused))
  · rename_i s' run
    exact wp_bind (wp_cleanUp mapper fun m a _ => wp_write (.removed (remove_removed run)))

/-- A heap call changes the ranges of a normal process only. -/
theorem allocate_drivers (size : Nat) (valid : k.Valid R) (member : root ∈ R) :
    wp (allocate mapper (root * 4096) size) (fun _ k' => k'.sched.driverProcess = k.sched.driverProcess)
      (fun _ k' => k'.sched.driverProcess = k.sched.driverProcess) k := by
  unfold allocate
  rw [Nat.mul_div_cancel root (by decide)]
  split
  · exact wp_fail rfl
  · refine wp_bind (wp_read ?_)
    split
    · exact wp_fail rfl
    · refine wp_bind ((growHeap_wp mapper _ _ 0 [] valid.stage.trail member fun _ none =>
        absurd none List.not_mem_nil).mono ?_ fun _ _ trail => congrArg Sched.driverProcess trail.stage.sched)
      exact fun _ k1 trail => wp_bind (wp_write (wp_pure rfl))

theorem deallocate_drivers (addr : Nat) (valid : k.Valid R) (member : root ∈ R) :
    wp (deallocate mapper (root * 4096) addr) (fun _ k' => k'.sched.driverProcess = k.sched.driverProcess)
      (fun _ k' => k'.sched.driverProcess = k.sched.driverProcess) k := by
  unfold deallocate
  rw [Nat.mul_div_cancel root (by decide)]
  refine wp_bind (wp_read ?_)
  split
  · exact wp_fail rfl
  · dsimp only
    split
    · exact wp_fail rfl
    · refine wp_bind ((shrinkHeap_wp mapper _ _ 0 valid.stage.trail member).mono ?_
        fun _ _ trail => congrArg Sched.driverProcess trail.stage.sched)
      exact fun _ k1 trail => wp_bind (wp_write (wp_pure rfl))

theorem pagefault_drivers (pml4 addr : Nat) :
    wp (pagefault mapper pml4 addr : Prog Kernel Error Unit)
      (fun _ k' => k'.sched.driverProcess = k.sched.driverProcess)
      (fun _ k' => k'.sched.driverProcess = k.sched.driverProcess) k := by
  refine wp_bind (wp_read (wp_bind (wp_unwrap fun process _ => ?_)))
  split
  · refine wp_bind (wp_allocateContiguous (fun _ => wp_pure rfl) fun frame a run => ?_)
    refine wp_bind (wp_pageAt fun bound => wp_bind (wp_mapTo mapper fun done m a' mapped => ?_))
    cases done with
    | false => exact wp_abort
    | true => exact wp_pure rfl
  · exact wp_pure rfl

/-- What any kernel event does to the driver table. -/
theorem Valid.driverChange (valid : k.Valid R) (known : ∀ t ∈ tables, ∃ r ∈ R, t = r * 4096) (caller : event.By tables)
    (run : k.step mapper parse event = some k') : DriverChange R k.sched k'.sched event := by
  cases event with
  | create data priority =>
    refine of_run (P := fun k1 => DriverChange R k.sched k1.sched (.create data priority))
      ((create_wp mapper parse data priority valid.stage).mono ?_ ?_) run
    · rintro _ k1 ⟨image, root, id, infos, stackBase, _, spawned⟩
      exact .created rfl spawned.fresh spawned.created
    · rintro _ k1 ⟨R', _, trail⟩
      exact .of_drivers rfl (congrArg Sched.driverProcess trail.stage.sched)
  | remove typ index =>
    exact of_run (P := fun k1 => DriverChange R k.sched k1.sched (.remove typ index)) (remove_drivers typ index) run
  | allocate userTable size =>
    obtain ⟨root, member, rfl⟩ := known userTable caller
    exact .of_drivers rfl (of_run (allocate_drivers size valid member) run)
  | deallocate userTable addr =>
    obtain ⟨root, member, rfl⟩ := known userTable caller
    exact .of_drivers rfl (of_run (deallocate_drivers addr valid member) run)
  | pagefault pml4 addr => exact .of_drivers rfl (of_run (pagefault_drivers pml4 addr) run)
  | tick regs cr3 =>
    obtain ⟨s', ticked, rfl⟩ := Option.map_eq_some_iff.mp run
    refine .kept rfl fun i => ?_
    obtain ⟨table, present, _⟩ := tick_slot_kept ticked .driver i
    exact ⟨present, table⟩

end

end Kernel

namespace IndexedKernel

/-- The index against the history: a present driver is not among the removed
ones, all others are, and an entry still names the slot of the driver that made
it unless that driver was removed. -/
structure Tracks (R : Set Nat) (s : Sched) (made : List (Nat × DrvTypeTable)) (removed : Set Nat) : Prop where
  live : ∀ i, (s.slot .driver i).present = true → (s.slot .driver i).tableAddr ∉ removed
  stale : ∀ i, (s.slot .driver i).present = false →
    (s.slot .driver i).tableAddr = 0 ∨ (s.slot .driver i).tableAddr ∈ removed
  owner : ∀ entry ∈ made, entry.1 ≠ 0 ∧ ((s.slot .driver entry.2.id).tableAddr = entry.1 ∨ entry.1 ∈ removed)
  known : ∀ table ∈ removed, ∃ r ∈ R, table = r * 4096

section
variable {R R' : Set Nat} {s s' : Sched} {made : List (Nat × DrvTypeTable)} {gone : Set Nat} {id root : Nat}

theorem Tracks.boot : Tracks R {} [] ∅ where
  live i present := by cases present
  stale i _ := Or.inl rfl
  owner entry member := absurd member List.not_mem_nil
  known table gone := gone.elim

theorem Tracks.mono (tracks : Tracks R s made gone) (grows : R ⊆ R') : Tracks R' s made gone where
  live := tracks.live
  stale := tracks.stale
  owner := tracks.owner
  known table member := by
    obtain ⟨r, old, same⟩ := tracks.known table member
    exact ⟨r, grows old, same⟩

theorem Tracks.congr (tracks : Tracks R s made gone) (same : ∀ i,
    (s'.slot .driver i).present = (s.slot .driver i).present ∧
      (s'.slot .driver i).tableAddr = (s.slot .driver i).tableAddr) : Tracks R s' made gone where
  live i := by rw [(same i).1, (same i).2]; exact tracks.live i
  stale i := by rw [(same i).1, (same i).2]; exact tracks.stale i
  owner entry member := by rw [(same _).2]; exact tracks.owner entry member
  known := tracks.known

/-- A new driver takes the slot of a removed one, whose entries stay. -/
theorem Tracks.created (tracks : Tracks R s made gone) (created : Created s s' .driver id (root * 4096))
    (fresh : root ∉ R) : Tracks R s' made gone := by
  have others (i : Nat) (apart : i ≠ id) : s'.slot .driver i = s.slot .driver i :=
    created.others .driver i fun both => apart both.2
  refine ⟨fun i present => ?_, fun i absent => ?_, fun entry member => ⟨(tracks.owner entry member).1, ?_⟩, tracks.known⟩
  · by_cases here : i = id
    · rw [here, created.slot]
      intro listed
      obtain ⟨r, member, same⟩ := tracks.known _ listed
      have equal : root = r := Nat.eq_of_mul_eq_mul_right (by decide) same
      exact fresh (equal ▸ member)
    · rw [others i here] at present ⊢
      exact tracks.live i present
  · by_cases here : i = id
    · rw [here, created.slot] at absent
      cases absent
    · rw [others i here] at absent ⊢
      exact tracks.stale i absent
  · obtain ⟨nonzero, same | listed⟩ := tracks.owner entry member
    · by_cases here : entry.2.id = id
      · rw [here] at same
        rcases tracks.stale id created.free with zero | listed
        · exact absurd (same.symm.trans zero) nonzero
        · exact Or.inr (same ▸ listed)
      · rw [others _ here]
        exact Or.inl same
    · exact Or.inr listed

theorem Tracks.removed {m : Mem} (tracks : Tracks R s made gone) (slots : Slots s (spacesFor m R))
    (removed : Removed s s' .driver id) : Tracks R s' made (gone ∪ {(s.slot .driver id).tableAddr}) := by
  have tables (i : Nat) := (removed.slot_kept .driver i).2.1
  have nonzero := slots.present .driver id removed.present
  refine ⟨fun i present => ?_, fun i absent => ?_, fun entry member => ?_, fun table listed => ?_⟩
  · have before := (removed.slot_kept .driver i).2.2 present
    rw [tables]
    rintro (listed | same)
    · exact tracks.live i before listed
    · have here := (slots.distinct .driver i .driver id (slots.present .driver i before) same).2
      rw [here, removed.slot] at present
      cases present
  · rw [tables]
    by_cases here : i = id
    · exact Or.inr (Or.inr (congrArg (fun j => (s.slot .driver j).tableAddr) here))
    · rw [removed.others .driver i fun both => here both.2] at absent
      exact (tracks.stale i absent).imp_right Or.inl
  · rw [tables]
    exact ⟨(tracks.owner entry member).1, (tracks.owner entry member).2.imp_right Or.inl⟩
  · rcases listed with old | rfl
    · exact tracks.known table old
    · obtain ⟨r, space, same⟩ := slots.rooted .driver id nonzero
      exact ⟨r, space.1, same⟩

theorem Tracks.change {m : Mem} {event : KernelEvent} (tracks : Tracks R s made gone) (slots : Slots s (spacesFor m R))
    (change : DriverChange R s s' event) : Tracks R s' made (gone ∪ removedBy s event) := by
  cases change with
  | kept quiet same =>
    rw [quiet, Set.union_empty]
    exact tracks.congr same
  | added quiet fresh created =>
    rw [quiet, Set.union_empty]
    exact tracks.created created fresh
  | dropped listed removed =>
    rw [listed]
    exact tracks.removed slots removed

/-- A call of a driver finds its slot by its table. -/
theorem Tracks.register (tracks : Tracks R s made gone) {pml4 : Nat} (nonzero : pml4 ≠ 0) (arg1 : UInt64) :
    Tracks R s (made ++ madeBy s pml4 arg1) gone := by
  refine ⟨tracks.live, tracks.stale, fun entry member => ?_, tracks.known⟩
  rcases List.mem_append.mp member with old | new
  · exact tracks.owner entry old
  · unfold madeBy at new
    split at new
    · cases new
    · rename_i did found
      split at new
      · cases new
      · cases List.mem_singleton.mp new
        exact ⟨nonzero, Or.inl (Kernel.coredrvProcess_table found)⟩

theorem Tracks.consistent_iff (tracks : Tracks R s made gone) :
    (∀ entry ∈ made, (s.slot .driver entry.2.id).present = true ∧ (s.slot .driver entry.2.id).tableAddr = entry.1) ↔
      ∀ entry ∈ made, entry.1 ∉ gone := by
  refine forall₂_congr fun entry member => ?_
  obtain ⟨nonzero, place⟩ := tracks.owner entry member
  constructor
  · rintro ⟨present, same⟩
    rw [← same]
    exact tracks.live _ present
  · intro kept
    have same := place.resolve_right kept
    refine ⟨?_, same⟩
    by_contra absent
    rcases tracks.stale _ (Bool.not_eq_true _ ▸ absent) with zero | listed
    · exact nonzero (same.symm.trans zero)
    · exact kept (same ▸ listed)

end

section
variable {mapper : DeviceMapper} {parse : List UInt8 → Option Image} {R : Set Nat} {t t' : IndexedKernel} {pml4 : Nat}
  {arg1 : UInt64} {bars : List (Option Bar)}

/-- A registration adds its entry and edits page tables; the processes stay as
they are. -/
theorem coredrv_edited {root : Nat} (valid : t.kernel.Valid R) (member : root ∈ R)
    (run : t.coredrv mapper (root * 4096) arg1 bars = some t') : Kernel.Edited R t.kernel t'.kernel ∧
      t'.index = t.index ++ (madeBy t.kernel.sched (root * 4096) arg1).map Prod.snd := by
  unfold coredrv at run
  unfold madeBy
  cases found : Kernel.coredrvProcess t.kernel.sched (root * 4096) with
  | none =>
    rw [found] at run
    cases run
    exact ⟨⟨rfl, .refl⟩, (List.append_nil _).symm⟩
  | some did =>
    simp only [found, driverTypeReg] at run ⊢
    split at run
    · rename_i invalid
      cases run
      rw [if_pos invalid]
      exact ⟨⟨rfl, .refl⟩, (List.append_nil _).symm⟩
    · rename_i known
      obtain ⟨out, mapped, rfl⟩ := Option.map_eq_some_iff.mp run
      rw [Kernel.coredrvProcess_table found, Nat.mul_div_cancel root (by decide)] at mapped
      rw [if_neg known]
      exact ⟨(Kernel.of_run (Kernel.mapDevices_wp mapper bars ⟨rfl, .refl⟩ valid member)
        (congrArg (Option.map Prod.snd) mapped)).edited, rfl⟩

/-- All that a run leaves behind. -/
theorem Reach.tracks {map : MemoryMap} {start : Kernel} {tables : Set Nat} {made : List (Nat × DrvTypeTable)}
    {removed : Set Nat} (boot : start.Boot map) (reach : Reach mapper parse start t tables made removed) :
    ∃ R, t.kernel.Valid R ∧ (∀ x ∈ tables, ∃ r ∈ R, x = r * 4096) ∧ t.index = made.map Prod.snd ∧
      Tracks R t.kernel.sched made removed := by
  induction reach with
  | boot =>
    refine ⟨∅, boot.valid, fun x none => none.elim, rfl, ?_⟩
    rw [boot.sched]
    exact Tracks.boot
  | @kernel t k tables made removed event _ caller run ih =>
    obtain ⟨R, valid, known, index, tracks⟩ := ih
    obtain ⟨R', goes⟩ := valid.step mapper.toPageMapper parse known caller run
    refine ⟨R', goes.valid, goes.valid.known_tables goes.grows known, index, ?_⟩
    exact (tracks.change valid.slots (valid.driverChange known caller run)).mono goes.grows
  | @coredrv t t' tables made removed pml4 arg1 bars _ caller run ih =>
    obtain ⟨R, valid, known, index, tracks⟩ := ih
    obtain ⟨root, member, rfl⟩ := known pml4 caller
    obtain ⟨edited, entries⟩ := coredrv_edited valid member run
    have valid' := edited.valid valid
    have nonzero : root * 4096 ≠ 0 := by
      have positive := valid.stage.root_pos member
      omega
    refine ⟨R, valid', valid'.known_tables (fun _ there => there) known, ?_, ?_⟩
    · rw [entries, index, List.map_append]
    · rw [edited.sched]
      exact tracks.register nonzero arg1

end

/-- The index names the drivers that made its entries, each present in its
slot, just when none of them was removed: nothing is ever taken off it. -/
theorem driver_types_consistent_iff (mapper : DeviceMapper) (parse : List UInt8 → Option Image) {map : MemoryMap}
    {start : Kernel} {t : IndexedKernel} {tables : Set Nat} {made : List (Nat × DrvTypeTable)} {removed : Set Nat}
    (boot : start.Boot map) (reach : Reach mapper parse start t tables made removed) :
    t.Consistent made ↔ ∀ entry ∈ made, entry.1 ∉ removed := by
  obtain ⟨R, _, _, index, tracks⟩ := reach.tracks boot
  exact (and_iff_right index).trans tracks.consistent_iff

/-- The first driver of the small machine registers as a graphics driver. -/
theorem registered_run :
    ∃ t tables, Reach FourLevel.deviceMapper flatParse smallKernel t tables [(0x1e02 * 4096, ⟨0, .graphics⟩)] ∅ ∧
      t.index = [⟨0, .graphics⟩] ∧ (t.kernel.sched.driverProcess 0).present = true := by
  have run : ((smallKernel.step FourLevel.deviceMapper.toPageMapper flatParse (.create [1, 0x90] 0)).map fun k =>
      ((k.sched.driverProcess 0).present.toNat, (k.sched.driverProcess 0).tableAddr)) = some (1, 0x1e02 * 4096) := by
    decide +kernel
  obtain ⟨k, first, same⟩ := Option.map_eq_some_iff.mp run
  obtain ⟨there, table⟩ := Prod.mk.inj same
  have present : (k.sched.driverProcess 0).present = true := Bool.toNat_eq_one.mp there
  have created : Reach FourLevel.deviceMapper flatParse smallKernel _ _ _
      (∅ ∪ removedBy smallKernel.sched (.create [1, 0x90] 0)) := Reach.boot.kernel (by exact trivial) first
  obtain ⟨R, valid, _⟩ := created.tracks smallKernel_boot
  have found : Kernel.coredrvProcess k.sched (0x1e02 * 4096) = some 0 := by
    rw [← table]
    exact congrArg (Option.map (· % 2 ^ 16)) (@Kernel.Valid.firstSlot_table k R valid .driver 0 (by decide) present)
  have call : coredrv FourLevel.deviceMapper ⟨k, []⟩ (0x1e02 * 4096) 0 [] = some ⟨k, [⟨0, .graphics⟩]⟩ := by
    unfold coredrv
    rw [found]
    rfl
  have made : madeBy k.sched (0x1e02 * 4096) 0 = [(0x1e02 * 4096, ⟨0, .graphics⟩)] := by
    unfold madeBy
    rw [found]
    rfl
  have kept : removedBy smallKernel.sched (.create [1, 0x90] 0) = ∅ := rfl
  have reach := created.coredrv (Or.inr ⟨by decide, .driver, 0, table⟩) call
  rw [made, List.nil_append, kept, Set.union_empty] at reach
  exact ⟨_, _, reach, rfl, present⟩

theorem driver_types_consistent_first_driver :
    ∃ t tables, Reach FourLevel.deviceMapper flatParse smallKernel t tables [(0x1e02 * 4096, ⟨0, .graphics⟩)] ∅ ∧
      t.index = [⟨0, .graphics⟩] ∧ t.Consistent [(0x1e02 * 4096, ⟨0, .graphics⟩)] := by
  obtain ⟨t, tables, reach, index, _⟩ := registered_run
  refine ⟨t, tables, reach, index, ?_⟩
  exact (driver_types_consistent_iff FourLevel.deviceMapper flatParse smallKernel_boot reach).mpr fun _ _ gone => gone

/-- When that driver is removed its entry stays, and names a slot without a
driver. -/
theorem driver_type_outlives_driver :
    ∃ t tables removed, Reach FourLevel.deviceMapper flatParse smallKernel t tables
        [(0x1e02 * 4096, ⟨0, .graphics⟩)] removed ∧
      t.index = [⟨0, .graphics⟩] ∧ (t.kernel.sched.slot .driver 0).present = false ∧
      ¬t.Consistent [(0x1e02 * 4096, ⟨0, .graphics⟩)] := by
  obtain ⟨t, tables, reach, index, present⟩ := registered_run
  have removable : (ProkaKernel.remove t.kernel.sched .driver 0).isOk = true := by
    simp [ProkaKernel.remove, removeDriver, present, maxPs, Except.isOk, Except.toBool]
  obtain ⟨k, run, removed⟩ := Kernel.remove_ok FourLevel.mapper removable
  have gone : (k.sched.slot .driver 0).present = false := congrArg Slot.present removed.slot
  have step : t.kernel.step FourLevel.mapper flatParse (.remove .driver 0) = some k :=
    congrArg (Option.map Prod.snd) run
  refine ⟨⟨k, t.index⟩, _, _, reach.kernel (by exact trivial) step, index, gone, fun consistent => ?_⟩
  have stays := (consistent.2 _ (List.mem_singleton_self _)).1
  exact absurd (stays.symm.trans gone) (by decide)

end IndexedKernel

end ProkaKernel
