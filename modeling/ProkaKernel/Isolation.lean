import ProkaKernel.KernelSteps
import ProkaKernel.FourLevel

namespace ProkaKernel

namespace Kernel

/-- The process in a slot, present or removed since, has its level-4 table in
frame `root`. -/
def Space (k : Kernel) (typ : ProcType) (i root : Nat) : Prop :=
  (k.sched.slot typ i).tableAddr = root * 4096 ∧ root ≠ 0

/-- Physical isolation of the address spaces of all processes. Every present
process has an address space; no frame is mapped at two places of the lower
halves, and none that is mapped there is a page table of any process. -/
structure Isolated (k : Kernel) : Prop where
  spaces : ∀ typ i, (k.sched.slot typ i).present = true → ∃ root, k.Space typ i root
  leaves : ∀ typ i root page typ' i' root' page' frame, k.Space typ i root → k.Space typ' i' root' →
    page < 2 ^ 35 → page' < 2 ^ 35 → translate k.mem root page = some frame →
    translate k.mem root' page' = some frame → typ = typ' ∧ i = i' ∧ page = page'
  tables : ∀ typ i root p typ' i' root' page frame, k.Space typ i root → k.Space typ' i' root' →
    p.length ≤ 3 → page < 2 ^ 35 → tableWalk k.mem root p = some frame → translate k.mem root' page ≠ some frame

theorem Space.root {k : Kernel} {R : Set Nat} {typ : ProcType} {i root : Nat} (space : k.Space typ i root)
    (slots : Slots k.sched (spacesFor k.mem R)) : root ∈ spacesFor k.mem R typ := by
  obtain ⟨table, positive⟩ := space
  obtain ⟨r, member, same⟩ := slots.rooted typ i (by omega)
  have equal : r = root := by omega
  exact equal ▸ member

theorem Space.unique {k : Kernel} {R : Set Nat} {typ typ' : ProcType} {i i' root : Nat} (space : k.Space typ i root)
    (space' : k.Space typ' i' root) (slots : Slots k.sched (spacesFor k.mem R)) : typ = typ' ∧ i = i' := by
  obtain ⟨table, positive⟩ := space
  exact slots.distinct typ i typ' i' (by omega) (table.trans space'.1.symm)

end Kernel

/-- A mapped frame is no page table, in the lower half or in the upper. -/
theorem Owns.leaf_not_table {m : Mem} {a : FrameAlloc} {R pend : Set Nat} (owns : Owns m a R pend)
    {root root' page frame : Nat} {p : List (Fin 512)} (member : root ∈ R) (member' : root' ∈ R) (short : p.length ≤ 3)
    (bound : page < 2 ^ 35) (table : tableWalk m root p = some frame) : translate m root' page ≠ some frame := by
  intro leaf
  have low' := pagePath_low bound
  by_cases low : LowPath p
  · obtain ⟨_, rfl⟩ := owns.spaces.exclusive member member' low low' table leaf
    exact absurd short (Nat.not_succ_le_self 3)
  · have taken := owns.spaces.placed frame ⟨root', _, member', low', leaf⟩
    cases p with
    | nil => exact low ⟨Nat.zero_le 4, fun _ none => nomatch none⟩
    | cons j q =>
      rw [List.length_cons] at short
      have high : 256 ≤ j.val := by
        refine Nat.le_of_not_lt fun small => low ⟨by rw [List.length_cons]; omega, fun i first => ?_⟩
        cases first
        exact small
      obtain ⟨s, first, rest⟩ := Option.bind_eq_some_iff.mp table
      have shared := owns.upper.linked root member j high s first
      have below := owns.upper.below s shared q frame (by omega) rest
      exact absurd taken.2 (by omega)

theorem Kernel.Valid.isolated {k : Kernel} {R : Set Nat} (valid : k.Valid R) : k.Isolated where
  spaces typ i present := by
    have nonzero := valid.slots.present typ i present
    obtain ⟨r, _, table⟩ := valid.slots.rooted typ i nonzero
    exact ⟨r, table, fun zero => nonzero (by rw [table, zero])⟩
  leaves typ i root page typ' i' root' page' frame space space' bound bound' leaf leaf' := by
    obtain ⟨rfl, path⟩ := valid.stage.owns.spaces.exclusive (space.root valid.slots).1 (space'.root valid.slots).1
      (pagePath_low bound) (pagePath_low bound') leaf leaf'
    obtain ⟨sameTyp, sameSlot⟩ := space.unique space' valid.slots
    exact ⟨sameTyp, sameSlot, pagePath_inj (by omega) (by omega) path⟩
  tables typ i root p typ' i' root' page frame space space' short bound table :=
    valid.stage.owns.leaf_not_table (space.root valid.slots).1 (space'.root valid.slots).1 short bound table

/-- Every interleaving of creations, removals, heap syscalls, stack faults and
ticks keeps all address spaces apart, on the error paths as well. -/
theorem Kernel.frames_isolated (mapper : PageMapper) (parse : List UInt8 → Option Image) {map : MemoryMap}
    {start k : Kernel} {tables : Set Nat} (boot : start.Boot map) (reach : Reach mapper parse start k tables) :
    k.Isolated := by
  obtain ⟨R, valid, _⟩ := reach.valid mapper parse boot
  exact valid.isolated

/-- A process and a driver are created on the small machine; then the process
takes two heap pages and its stack grows by a page. -/
theorem Kernel.frames_isolated_two_processes :
    ∃ k tables, Reach FourLevel.mapper flatParse smallKernel k tables ∧ k.Space .normal 0 0x1e02 ∧
      k.Space .driver 0 0x1e0c ∧ translate k.mem 0x1e02 0x180001 = some 0x1e18 ∧
      translate k.mem 0x1e02 0x7fffffffd = some 0x1e19 ∧ translate k.mem 0x1e0c 0x200 = some 0x1e0b ∧ k.Isolated := by
  have run : ((smallKernel.step FourLevel.mapper flatParse (.create [0x90] 0)).bind fun k1 =>
      (k1.step FourLevel.mapper flatParse (.create [1, 0x90] 0)).bind fun k2 =>
      (k2.step FourLevel.mapper flatParse (.allocate (0x1e02 * 4096) 5000)).bind fun k3 =>
      (k3.step FourLevel.mapper flatParse (.pagefault (0x1e02 * 4096) 0x7fffffffd123)).map fun k4 =>
        [some (k1.sched.slot .normal 0).tableAddr, some (k4.sched.slot .normal 0).tableAddr,
          some (k4.sched.slot .driver 0).tableAddr, translate k4.mem 0x1e02 0x180001,
          translate k4.mem 0x1e02 0x7fffffffd, translate k4.mem 0x1e0c 0x200]) =
      some [some (0x1e02 * 4096), some (0x1e02 * 4096), some (0x1e0c * 4096), some 0x1e18, some 0x1e19, some 0x1e0b] := by
    decide +kernel
  obtain ⟨k1, first, run⟩ := Option.bind_eq_some_iff.mp run
  obtain ⟨k2, second, run⟩ := Option.bind_eq_some_iff.mp run
  obtain ⟨k3, third, run⟩ := Option.bind_eq_some_iff.mp run
  obtain ⟨k4, fourth, same⟩ := Option.map_eq_some_iff.mp run
  simp only [List.cons.injEq, Option.some.injEq, and_true] at same
  obtain ⟨table, process, driver, heap, stack, code⟩ := same
  have caller : 0x1e02 * 4096 ∈ ∅ ∪ k1.tables := Or.inr ⟨by decide, .normal, 0, table⟩
  have reach := (((Reach.boot.next (by exact trivial) first).next (by exact trivial) second).next
    (by exact Or.inl caller) third).next (by exact Or.inl (Or.inl caller)) fourth
  exact ⟨k4, _, reach, ⟨process, by decide⟩, ⟨driver, by decide⟩, heap, stack, code,
    frames_isolated FourLevel.mapper flatParse smallKernel_boot reach⟩

namespace Kernel

/-- The lookup of `coredrv` by the caller's page table. -/
def coredrvProcess (s : Sched) (pml4 : Nat) : Option Nat :=
  (firstSlot fun i => (s.driverProcess i).tableAddr == pml4).map (· % 2 ^ 16)

theorem Valid.firstSlot_table {k : Kernel} {R : Set Nat} (valid : k.Valid R) {typ : ProcType} {i : Nat}
    (bound : i < maxPs) (present : (k.sched.slot typ i).present = true) :
    (firstSlot fun j => (k.sched.slot typ j).tableAddr == (k.sched.slot typ i).tableAddr) = some i := by
  refine firstSlot_unique bound (beq_self_eq_true _) fun j _ same => ?_
  have table := eq_of_beq same
  have nonzero := valid.slots.present typ i present
  exact (valid.slots.distinct typ j typ i (table ▸ nonzero) table).2

/-- A page table belongs to one slot, present or removed, in every reachable
state. So the lookups by table find the present caller, although they do not
look whether the slot is present. -/
theorem tables_identify_owners (mapper : PageMapper) (parse : List UInt8 → Option Image) {map : MemoryMap}
    {start k : Kernel} {tables : Set Nat} (boot : start.Boot map) (reach : Reach mapper parse start k tables) :
    (∀ typ i typ' i', (k.sched.slot typ i).tableAddr ≠ 0 →
      (k.sched.slot typ i).tableAddr = (k.sched.slot typ' i').tableAddr → typ = typ' ∧ i = i') ∧
    (∀ i, i < maxPs → (k.sched.normalProcess i).present = true →
      findProcess k.sched (k.sched.normalProcess i).tableAddr = some i) ∧
    ∀ i, i < maxPs → (k.sched.driverProcess i).present = true →
      coredrvProcess k.sched (k.sched.driverProcess i).tableAddr = some i := by
  obtain ⟨R, valid, _⟩ := reach.valid mapper parse boot
  refine ⟨valid.slots.distinct, fun i bound present => ?_, fun i bound present => ?_⟩
  · exact @Valid.firstSlot_table k R valid .normal i bound present
  · have found := @Valid.firstSlot_table k R valid .driver i bound present
    have small : i % 2 ^ 16 = i := Nat.mod_eq_of_lt (Nat.lt_of_lt_of_le bound (by decide))
    exact (congrArg (Option.map (· % 2 ^ 16)) found).trans (congrArg some small)

/-- The first process of the small machine has frame 7682 for its table. -/
theorem tables_identify_first_process :
    ∃ k tables, Reach FourLevel.mapper flatParse smallKernel k tables ∧
      findProcess k.sched (0x1e02 * 4096) = some 0 := by
  have run : ((smallKernel.step FourLevel.mapper flatParse (.create [0x90] 0)).map fun k =>
      ((k.sched.normalProcess 0).present.toNat, (k.sched.normalProcess 0).tableAddr)) = some (1, 0x1e02 * 4096) := by
    decide +kernel
  obtain ⟨k, first, same⟩ := Option.map_eq_some_iff.mp run
  obtain ⟨present, table⟩ := Prod.mk.inj same
  have reach := Reach.boot.next (by exact trivial) first
  refine ⟨k, _, reach, ?_⟩
  rw [← table]
  exact (tables_identify_owners FourLevel.mapper flatParse smallKernel_boot reach).2.1 0 (by decide)
    (Bool.toNat_eq_one.mp present)

end Kernel

end ProkaKernel
