import ProkaKernel.FaultLookup
import ProkaKernel.FrameRuns
import ProkaKernel.Ownership
import ProkaKernel.Prog

namespace ProkaKernel

/-- A section header as `proka_exec` reads it from an executable. -/
structure Section where
  base : Nat
  size : Nat
  loadable : Bool
  execable : Bool

/-- What the parser of `proka_exec` tells about an executable. -/
structure Image where
  valid : Bool
  coreDrv : Bool
  sections : List Section

def Image.procType (image : Image) : ProcType := if image.coreDrv then .driver else .normal

structure SectionData where
  addr : Nat
  pages : Nat
  executable : Bool

/-- Physical memory, the frame allocator, and the processes with their queues. -/
structure Kernel where
  mem : Mem
  alloc : FrameAlloc
  sched : Sched := {}

/-- Pages below this one are never handed out (`USED_PAGE`). -/
def usedPage : Nat := 0x1e00

namespace Kernel

section Primitives
variable {ε : Type} (mapper : PageMapper)

def allocateContiguous (n : Nat) : Prog Kernel ε (Option Nat) := fun k =>
  match k.alloc.allocateContiguous n with
  | none => some (.ok none, k)
  | some (pfn, a) => some (.ok (some pfn), { k with alloc := a })

def allocateFrame : Prog Kernel ε (Option Nat) := allocateContiguous 1

def deallocateFrame (pfn : Nat) : Prog Kernel ε Unit :=
  Prog.write fun k => { k with alloc := k.alloc.deallocateContiguous pfn 1 }

def mapTo (root page frame flags : Nat) : Prog Kernel ε Bool := fun k =>
  match mapper.mapTo k.mem k.alloc root page frame flags with
  | (ok, m, a) => some (.ok ok, { k with mem := m, alloc := a })

def unmap (root page : Nat) : Prog Kernel ε (Option Nat) := fun k =>
  match mapper.unmap k.mem root page with
  | (frame, m) => some (.ok frame, { k with mem := m })

def cleanUp (root : Nat) : Prog Kernel ε Unit := fun k =>
  match mapper.cleanUp k.mem k.alloc root with
  | (m, a) => some (.ok (), { k with mem := m, alloc := a })

/-- The page of a lower-half address; `VirtAddr::new` panics on an address
that is not canonical. -/
def pageAt (addr : Nat) : Prog Kernel ε Nat :=
  if addr < 2 ^ 47 then pure (addr / 4096) else Prog.abort

end Primitives

open PageFlags

def stackFlags : ProcType → Nat
  | .driver => present ||| writable ||| noExecute
  | .normal => present ||| writable ||| noExecute ||| userAccessible

def sectionFlags (typ : ProcType) (executable : Bool) : Nat :=
  let basic := if executable then present else present ||| writable ||| noExecute
  if typ = .normal then basic ||| userAccessible else basic

/-- Flags of heap pages, and of stack pages added by the page-fault handler. -/
def heapFlags : Nat := present ||| writable ||| noExecute

/-- `&data[base..base + size]`, which panics outside the data. -/
def slice (data : List UInt8) (base size : Nat) : Option (List UInt8) :=
  if base + size ≤ data.length then some ((data.drop base).take size) else none

section Create
variable (mapper : PageMapper) (parse : List UInt8 → Option Image)

def loadSection (data : List UInt8) (sec : Section) : Prog Kernel Error SectionData := do
  let pages := divCeil sec.size pageSize
  let frame ← allocateContiguous pages >>= Prog.orFail .memoryNotEnough
  let bytes ← Prog.unwrap (slice data sec.base sec.size)
  Prog.write fun k => { k with mem := k.mem.copy (frame * 4096) bytes }
  pure ⟨frame * 4096, pages, sec.execable⟩

/-- The section loading loop; sections that are not loadable are passed over. -/
def loadSections (data : List UInt8) : List Section → Prog Kernel Error (List SectionData)
  | [] => pure []
  | sec :: rest =>
    if sec.loadable then do
      let info ← loadSection data sec
      let infos ← loadSections data rest
      pure (info :: infos)
    else loadSections data rest

/-- The new level-4 table. The copy of the kernel's table is zeroed at once,
so only the entry of the upper half is left. -/
def makePml4 (typ : ProcType) : Prog Kernel Error Nat := do
  let pml4 ← allocateContiguous 1 >>= Prog.orFail .memoryNotEnough
  let upper := if typ = .driver then pdptHproc else pdptHigh
  Prog.write fun k =>
    { k with mem := (k.mem.zeroFrame pml4).setEntry pml4 256 (pte upper (present ||| writable)) }
  pure pml4

/-- `map_to` with its error turned into `PageError`. -/
def mapOrFail (root page frame flags : Nat) : Prog Kernel Error Unit := do
  let mapped ← mapTo mapper root page frame flags
  if mapped then pure () else Prog.fail .pageError

def stackPages : Nat := 2

def mapStack (typ : ProcType) (root stackBase : Nat) : Nat → Nat → Prog Kernel Error Unit
  | 0, _ => pure ()
  | left + 1, i => do
    let page ← pageAt (i * 0x1000 + 0x7fffffffe000)
    mapOrFail mapper root page ((i * 0x1000 + stackBase) / 4096) (stackFlags typ)
    mapStack typ root stackBase left (i + 1)

/-- The inner loop over the pages of a section. It returns the page counter,
which it also advances. -/
def mapSection (typ : ProcType) (root : Nat) (info : SectionData) : Nat → Nat → Nat → Prog Kernel Error Nat
  | 0, _, currentPage => pure currentPage
  | left + 1, i, currentPage => do
    let page ← pageAt (0x200000 + (currentPage + i) * 0x1000)
    mapOrFail mapper root page ((info.addr + i * 0x1000) / 4096) (sectionFlags typ info.executable)
    mapSection typ root info left (i + 1) (currentPage + 1)

def mapSections (typ : ProcType) (root : Nat) : List SectionData → Nat → Prog Kernel Error Unit
  | [], _ => pure ()
  | info :: rest, currentPage => do
    let currentPage ← mapSection mapper typ root info info.pages 0 currentPage
    mapSections typ root rest currentPage

/-- `create_normal` and `create_driver`; a full process table is a panic. -/
def enroll (typ : ProcType) (pml4 priority : Nat) : Prog Kernel Error Unit := do
  let s ← Prog.read Kernel.sched
  let s' ← Prog.unwrap (match typ with
    | .normal => createNormal s (pml4 * 4096) priority
    | .driver => createDriver s (pml4 * 4096))
  Prog.write fun k => { k with sched := s' }

/-- The part of `create` that builds the address space. -/
def makeSpace (typ : ProcType) (infos : List SectionData) : Prog Kernel Error Nat := do
  let pml4 ← makePml4 typ
  let stackBase ← allocateContiguous stackPages >>= Prog.orFail .memoryNotEnough
  mapStack mapper typ pml4 (stackBase * 4096) stackPages 0
  mapSections mapper typ pml4 infos 0
  pure pml4

def create (data : List UInt8) (priority : Nat) : Prog Kernel Error Unit := do
  let image ← Prog.orFail .invalidFormat (parse data)
  if image.valid then do
    let infos ← loadSections data image.sections
    let pml4 ← makeSpace mapper image.procType infos
    enroll image.procType pml4 priority
  else Prog.fail .invalidFormat

end Create

/-- `process::remove`: the page tables are cleaned up, and the entry is taken
off its table and its queue. -/
def remove (mapper : PageMapper) (typ : ProcType) (index : Nat) : Prog Kernel Error Unit := do
  let s ← Prog.read Kernel.sched
  match ProkaKernel.remove s typ index with
  | .error e => Prog.fail e
  | .ok s' => do
    cleanUp mapper ((s.slot typ index).tableAddr / 4096)
    Prog.write fun k => { k with sched := s' }

section Heap
variable (mapper : PageMapper)

/-- The lookup of the heap syscalls by the caller's page table. -/
def findProcess (s : Sched) (userTable : Nat) : Option Nat :=
  firstSlot fun i => (s.normalProcess i).tableAddr == userTable

def heapTop (ranges : List HeapRange) : Nat := (ranges.map HeapRange.stop).max?.getD 0x180000000

def withHeap (s : Sched) (pid : Nat) (ranges : List HeapRange) : Sched :=
  { s with normalProcess :=
      Function.update s.normalProcess pid { s.normalProcess pid with heapRange := ranges } }

/-- Unmap a page and give its frame back; a page that is not mapped is passed
over. -/
def releasePage {ε : Type} (root page : Nat) : Prog Kernel ε Unit := do
  match ← unmap mapper root page with
  | some frame => deallocateFrame frame
  | none => pure ()

/-- The fallback of `allocate`. -/
def rollback {ε : Type} (root : Nat) : List Nat → Prog Kernel ε Unit
  | [] => pure ()
  | page :: pages => do
    releasePage mapper root page
    rollback root pages

/-- The mapping loop of `allocate`. -/
def growHeap (root top : Nat) : Nat → Nat → List Nat → Prog Kernel Int Unit
  | 0, _, _ => pure ()
  | left + 1, i, allocatedPages => do
    match ← allocateFrame with
    | none => do
      rollback mapper root allocatedPages
      Prog.fail (-18)
    | some phys => do
      let virt ← pageAt (top + i * 4096)
      let mapped ← mapTo mapper root virt phys heapFlags
      if mapped then growHeap root top left (i + 1) (allocatedPages ++ [virt])
      else do
        rollback mapper root allocatedPages
        Prog.fail (-18)

/-- The memory syscall's `allocate`; its negative codes are the errors here. -/
def allocate (userTable size : Nat) : Prog Kernel Int Int :=
  if size = 0 then Prog.fail (-16)
  else do
    let s ← Prog.read Kernel.sched
    match findProcess s userTable with
    | none => Prog.fail (-17)
    | some pid => do
      let top := heapTop (s.normalProcess pid).heapRange
      let pages := divCeil size pageSize
      growHeap mapper (userTable / 4096) top pages 0 []
      Prog.write fun k => { k with
        sched := withHeap s pid ((s.normalProcess pid).heapRange ++ [⟨top, top + 4096 * pages⟩]) }
      pure top

def HeapRange.contains (range : HeapRange) (addr : Nat) : Bool := range.start ≤ addr && addr < range.stop

/-- The unmapping loop of `deallocate`. -/
def shrinkHeap (root start : Nat) : Nat → Nat → Prog Kernel Int Unit
  | 0, _ => pure ()
  | left + 1, i => do
    let page ← pageAt (start + i * 4096)
    releasePage mapper root page
    shrinkHeap root start left (i + 1)

/-- The memory syscall's `deallocate`; its negative codes are the errors here. -/
def deallocate (userTable addr : Nat) : Prog Kernel Int Int := do
  let s ← Prog.read Kernel.sched
  match findProcess s userTable with
  | none => Prog.fail (-16)
  | some pid =>
    let ranges := (s.normalProcess pid).heapRange
    match ranges.findIdx? (HeapRange.contains · addr) with
    | none => Prog.fail (-17)
    | some idx => do
      let range := ranges.getD idx ⟨0, 0⟩
      shrinkHeap mapper (userTable / 4096) range.start (divCeil (range.stop - range.start) pageSize) 0
      Prog.write fun k => { k with sched := withHeap s pid (ranges.eraseIdx idx) }
      pure 0

/-- The page-fault handler up to its call of `process::remove`. That call
waits for the lock that the handler itself holds for reading, so nothing runs
after it. -/
def pagefault {ε : Type} (pml4 addr : Nat) : Prog Kernel ε Unit := do
  let s ← Prog.read Kernel.sched
  let process ← Prog.unwrap (pagefaultProcess s pml4)
  if (s.slot process.1 process.2).stackBottom ≤ addr ∧ addr < 0x7ffffffff000 then do
    match ← allocateFrame with
    | none => pure ()
    | some frame => do
      let page ← pageAt addr
      let mapped ← mapTo mapper (pml4 / 4096) page frame heapFlags
      if mapped then pure () else Prog.abort
  else pure ()

end Heap

end Kernel

/-- What can happen to the kernel. The syscalls and the page-fault handler
get the page table that the interrupted process had in CR3. -/
inductive KernelEvent
  | create (data : List UInt8) (priority : Nat)
  | remove (typ : ProcType) (index : Nat)
  | allocate (userTable size : Nat)
  | deallocate (userTable addr : Nat)
  | pagefault (pml4 addr : Nat)
  | tick (regs : Context) (cr3 : Nat)

/-- The event comes from a process on one of these page tables, if it comes
from a process. -/
def KernelEvent.By (tables : Set Nat) : KernelEvent → Prop
  | .allocate userTable _ => userTable ∈ tables
  | .deallocate userTable _ => userTable ∈ tables
  | .pagefault pml4 _ => pml4 ∈ tables
  | _ => True

namespace Kernel
variable (mapper : PageMapper) (parse : List UInt8 → Option Image)

/-- One event; `none` is a panic, which ends the run. -/
def step (k : Kernel) : KernelEvent → Option Kernel
  | .create data priority => (create mapper parse data priority k).map Prod.snd
  | .remove typ index => (remove mapper typ index k).map Prod.snd
  | .allocate userTable size => (allocate mapper userTable size k).map Prod.snd
  | .deallocate userTable addr => (deallocate mapper userTable addr k).map Prod.snd
  | .pagefault pml4 addr => ((pagefault mapper pml4 addr : Prog Kernel Error Unit) k).map Prod.snd
  | .tick regs cr3 => (ProkaKernel.step k.sched (.tick regs cr3)).map fun s => { k with sched := s }

/-- The level-4 tables of all processes in the process tables. -/
def tables (k : Kernel) : Set Nat := { t | t ≠ 0 ∧ ∃ typ i, (k.sched.slot typ i).tableAddr = t }

/-- The state in which the first process is created: the allocator has only
served the kernel itself, and the tables that `paging::init` built for the
upper half lie below the pages that are handed out. -/
structure Boot (map : MemoryMap) (k : Kernel) : Prop where
  alloc : ∃ initial live freed, FrameAlloc.init map usedPage = some initial ∧
    FrameAlloc.AllocReach initial k.alloc live freed
  sched : k.sched = {}
  upper : ∀ s, Shared s → ∀ p f, p.length ≤ 2 → tableWalk k.mem s p = some f → f < usedPage

/-- All runs, with the level-4 tables of all processes created so far. Any of
these processes may call at any time, also after it was removed. -/
inductive Reach (start : Kernel) : Kernel → Set Nat → Prop
  | boot : Reach start start ∅
  | next {k k' tables event} : Reach start k tables → event.By tables → k.step mapper parse event = some k' →
      Reach start k' (tables ∪ k'.tables)

end Kernel

end ProkaKernel
