import Mathlib.Algebra.Group.Nat.Defs
import Mathlib.Logic.Function.Basic

namespace ProkaKernel

/-- Slots of each process table (`MAX_PS`). -/
def maxPs : Nat := 16384

/-- The physical address of the kernel's own level-4 table (`PML4_ADDR`). -/
def kernelPml4 : Nat := 0x100000

inductive Status
  | ready
  | running
  deriving DecidableEq

inductive Error
  | memoryNotEnough
  | addressNotAligned
  | processNotExist
  | invalidIndex
  | invalidFormat
  | pageError
  deriving DecidableEq

inductive ProcType
  | normal
  | driver
  deriving DecidableEq

/-- The class whose turn the scheduler takes after this one. -/
def ProcType.other : ProcType → ProcType
  | .normal => .driver
  | .driver => .normal

theorem ProcType.other_ne (typ : ProcType) : typ.other ≠ typ := by
  cases typ <;> decide

@[simp] theorem ProcType.other_other (typ : ProcType) : typ.other.other = typ := by
  cases typ <;> rfl

/-- The saved registers of a task. -/
structure Context where
  rax : Nat := 0
  rbx : Nat := 0
  rcx : Nat := 0
  rdx : Nat := 0
  rsi : Nat := 0
  rdi : Nat := 0
  rsp : Nat := 0
  rbp : Nat := 0
  r8 : Nat := 0
  r9 : Nat := 0
  r10 : Nat := 0
  r11 : Nat := 0
  r12 : Nat := 0
  r13 : Nat := 0
  r14 : Nat := 0
  r15 : Nat := 0
  rflags : Nat := 0
  rip : Nat := 0
  cs : Nat := 0
  ss : Nat := 0
  deriving DecidableEq

/-- A segment selector: descriptor index and requested privilege level. -/
def selector (index rpl : Nat) : Nat := index * 8 + rpl

/-- Selectors in the order in which `GDT` appends its descriptors. -/
structure Selectors where
  kernelCode : Nat := selector 1 0
  kernelData : Nat := selector 2 0
  userData : Nat := selector 3 3
  userCode : Nat := selector 4 3

def gdt : Selectors := {}

/-- `RFlags::INTERRUPT_FLAG | RFlags::ID`. -/
def initialFlags : Nat := 2 ^ 9 + 2 ^ 21

def Context.normal : Context where
  rsp := 0x7FFFFFFFF000
  rbp := 0x7FFFFFFFF000
  rip := 0x200000
  rflags := initialFlags
  cs := gdt.userCode
  ss := gdt.userData

def Context.driver : Context where
  rsp := 0x7FFFFFFFF000
  rbp := 0x7FFFFFFFF000
  rip := 0x200000
  rflags := initialFlags
  cs := gdt.kernelCode
  ss := gdt.kernelData

/-- A half-open address range (`core::range::Range<u64>`). -/
structure HeapRange where
  start : Nat
  stop : Nat
  deriving DecidableEq

structure NormalProcess where
  present : Bool := false
  status : Status := .ready
  priority : Nat := 0
  context : Context := {}
  currentTable : Nat := 0
  stackBottom : Nat := 0
  heapRange : List HeapRange := []
  heapBottom : Nat := 0
  tableAddr : Nat := 0
  deriving DecidableEq

def NormalProcess.create (frame priority stackSize : Nat) : NormalProcess where
  present := true
  status := .ready
  priority := priority
  context := Context.normal
  currentTable := frame
  stackBottom := Context.normal.rsp - stackSize
  heapRange := []
  heapBottom := 0x180000000
  tableAddr := frame

def NormalProcess.remove (process : NormalProcess) : NormalProcess :=
  { process with present := false }

structure DriverProcess where
  present : Bool := false
  status : Status := .ready
  context : Context := {}
  stackBottom : Nat := 0
  heapBottom : Nat := 0
  heapRange : List HeapRange := []
  tableAddr : Nat := 0
  deriving DecidableEq

def DriverProcess.create (frame stackSize : Nat) : DriverProcess where
  present := true
  status := .ready
  context := Context.driver
  stackBottom := Context.driver.rsp - stackSize
  heapRange := []
  heapBottom := 0x180000000
  tableAddr := frame

def DriverProcess.remove (process : DriverProcess) : DriverProcess :=
  { process with present := false }

/-- The two process tables, their run queues and the scheduler's statics.
A table is read as a function of the slot; only slots below `maxPs` exist. -/
structure Sched where
  normalProcess : Nat → NormalProcess := fun _ => {}
  driverProcess : Nat → DriverProcess := fun _ => {}
  normalQueue : List Nat := []
  driverQueue : List Nat := []
  isDriver : Bool := false
  currentId : Nat := 16383

/-- What the two kinds of table entry have in common. A task is resumed on
`resumeTable`: the recorded table of a normal process, the own one of a driver. -/
structure Slot where
  present : Bool
  context : Context
  resumeTable : Nat
  tableAddr : Nat
  stackBottom : Nat
  heapRange : List HeapRange

def NormalProcess.slot (process : NormalProcess) : Slot where
  present := process.present
  context := process.context
  resumeTable := process.currentTable
  tableAddr := process.tableAddr
  stackBottom := process.stackBottom
  heapRange := process.heapRange

def DriverProcess.slot (process : DriverProcess) : Slot where
  present := process.present
  context := process.context
  resumeTable := process.tableAddr
  tableAddr := process.tableAddr
  stackBottom := process.stackBottom
  heapRange := process.heapRange

namespace Sched

def slot (s : Sched) : ProcType → Nat → Slot
  | .normal, i => (s.normalProcess i).slot
  | .driver, i => (s.driverProcess i).slot

/-- A driver is always resumed on its own table. -/
@[simp] theorem slot_driver_resumeTable (s : Sched) (i : Nat) :
    (s.slot .driver i).resumeTable = (s.slot .driver i).tableAddr := rfl

def queue (s : Sched) : ProcType → List Nat
  | .normal => s.normalQueue
  | .driver => s.driverQueue

def withQueue (s : Sched) (queue : List Nat) : ProcType → Sched
  | .normal => { s with normalQueue := queue }
  | .driver => { s with driverQueue := queue }

end Sched

/-- The table scans (`iter().find` and the loop that looks for a free entry):
the first slot from `i` on that passes the test. -/
def firstSlotFrom (test : Nat → Bool) : Nat → Nat → Option Nat
  | 0, _ => none
  | fuel + 1, i => if test i then some i else firstSlotFrom test fuel (i + 1)

def firstSlot (test : Nat → Bool) : Option Nat := firstSlotFrom test maxPs 0

theorem firstSlotFrom_some {test : Nat → Bool} {fuel start i : Nat}
    (found : firstSlotFrom test fuel start = some i) :
    start ≤ i ∧ i < start + fuel ∧ test i = true ∧ ∀ j, start ≤ j → j < i → test j = false := by
  induction fuel generalizing start with
  | zero => simp [firstSlotFrom] at found
  | succ fuel ih =>
    simp only [firstSlotFrom] at found
    split at found
    · rename_i passes
      cases found
      exact ⟨Nat.le_refl _, by omega, passes, fun j above below => absurd below (by omega)⟩
    · rename_i fails
      obtain ⟨above, below, passes, earlier⟩ := ih found
      refine ⟨by omega, by omega, passes, fun j lower upper => ?_⟩
      by_cases first : j = start
      · subst first
        exact Bool.not_eq_true _ ▸ fails
      · exact earlier j (by omega) upper

theorem firstSlotFrom_none {test : Nat → Bool} {fuel start : Nat}
    (missing : firstSlotFrom test fuel start = none) :
    ∀ i, start ≤ i → i < start + fuel → test i = false := by
  induction fuel generalizing start with
  | zero => intro i lower upper; omega
  | succ fuel ih =>
    simp only [firstSlotFrom] at missing
    split at missing
    · cases missing
    · rename_i fails
      intro i lower upper
      by_cases first : i = start
      · subst first
        exact Bool.not_eq_true _ ▸ fails
      · exact ih missing i (by omega) (by omega)

theorem firstSlot_some {test : Nat → Bool} {i : Nat} (found : firstSlot test = some i) :
    i < maxPs ∧ test i = true ∧ ∀ j, j < i → test j = false := by
  obtain ⟨_, bound, passes, earlier⟩ := firstSlotFrom_some found
  exact ⟨by omega, passes, fun j below => earlier j (Nat.zero_le j) below⟩

theorem firstSlot_none {test : Nat → Bool} (missing : firstSlot test = none) :
    ∀ i, i < maxPs → test i = false :=
  fun i bound => firstSlotFrom_none missing i (Nat.zero_le i) (by omega)

theorem firstSlot_first {test : Nat → Bool} {i : Nat} (bound : i < maxPs) (passes : test i = true)
    (earlier : ∀ j < i, test j = false) : firstSlot test = some i := by
  cases found : firstSlot test with
  | none =>
    have fails := firstSlot_none found i bound
    rw [passes] at fails
    cases fails
  | some j =>
    obtain ⟨_, here, before⟩ := firstSlot_some found
    rcases Nat.lt_trichotomy i j with lt | rfl | gt
    · cases (before i lt).symm.trans passes
    · rfl
    · cases (earlier j gt).symm.trans here

/-- A slot that alone passes the test is the one found. -/
theorem firstSlot_unique {test : Nat → Bool} {i : Nat} (bound : i < maxPs) (passes : test i = true)
    (only : ∀ j, j < maxPs → test j = true → j = i) : firstSlot test = some i :=
  firstSlot_first bound passes fun j earlier =>
    Bool.eq_false_iff.mpr fun hit => Nat.ne_of_lt earlier (only j (Nat.lt_trans earlier bound) hit)

/-- The slot a new process is put into: the first one that is not present. -/
def firstFree (present : Nat → Bool) : Option Nat := firstSlot fun i => !present i

theorem firstFree_spec {present : Nat → Bool} {i : Nat} (found : firstFree present = some i) :
    i < maxPs ∧ present i = false := by
  obtain ⟨bound, free, _⟩ := firstSlot_some found
  exact ⟨bound, by simpa only [Bool.not_eq_true'] using free⟩

/-- `None` is the panic of `unwrap` on a full table. -/
def createNormal (s : Sched) (frame priority : Nat) : Option Sched :=
  (firstFree fun i => (s.normalProcess i).present).map fun pid =>
    { s with
      normalProcess := Function.update s.normalProcess pid (NormalProcess.create frame priority 0x100000)
      normalQueue := s.normalQueue ++ [pid] }

def createDriver (s : Sched) (frame : Nat) : Option Sched :=
  (firstFree fun i => (s.driverProcess i).present).map fun did =>
    { s with
      driverProcess := Function.update s.driverProcess did (DriverProcess.create frame 0x100000)
      driverQueue := s.driverQueue ++ [did] }

def removeNormal (s : Sched) (index : Nat) : Except Error Sched :=
  if maxPs ≤ index then .error .invalidIndex
  else if (s.normalProcess index).present then
    .ok { s with
      normalProcess := Function.update s.normalProcess index (s.normalProcess index).remove
      normalQueue := s.normalQueue.filter (fun item => item != index) }
  else .error .processNotExist

def removeDriver (s : Sched) (index : Nat) : Except Error Sched :=
  if maxPs ≤ index then .error .invalidIndex
  else if (s.driverProcess index).present then
    .ok { s with
      driverProcess := Function.update s.driverProcess index (s.driverProcess index).remove
      driverQueue := s.driverQueue.filter (fun item => item != index) }
  else .error .processNotExist

/-- What `process::remove` does to the tables and the queues. -/
def remove (s : Sched) : ProcType → Nat → Except Error Sched
  | .normal, index => removeNormal s index
  | .driver, index => removeDriver s index

end ProkaKernel
