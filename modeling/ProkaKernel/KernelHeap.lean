import ProkaKernel.FourLevel

namespace ProkaKernel

/-- `core::alloc::Layout`: the alignment is a power of two. -/
structure Layout where
  size : Nat
  align : Nat
  power : ∃ e, align = 2 ^ e
  deriving DecidableEq

/-- A 4 KiB frame of the paging crate, known by its address. -/
structure PhysFrame where
  startAddress : Nat

def PhysFrame.fromPfn (pfn : Nat) : PhysFrame := ⟨pfn * 4096⟩

def PhysFrame.pfn (frame : PhysFrame) : Nat := frame.startAddress / 4096

theorem PhysFrame.pfn_fromPfn (pfn : Nat) : (fromPfn pfn).pfn = pfn := Nat.mul_div_cancel pfn (by decide)

namespace FrameAdapter

/-- The x86_64 wrapper of the frame allocator. -/
def allocateContiguous (a : FrameAlloc) (n : Nat) : Option (PhysFrame × FrameAlloc) :=
  (a.allocateContiguous n).map fun out => (PhysFrame.fromPfn out.1, out.2)

def deallocateContiguous (a : FrameAlloc) (frame : PhysFrame) (n : Nat) : FrameAlloc :=
  a.deallocateContiguous frame.pfn n

end FrameAdapter

namespace FrameProvider

/-- The same frames as the kernel heap sees them, by number. -/
def allocateContiguous (a : FrameAlloc) (n : Nat) : Option (Nat × FrameAlloc) :=
  (FrameAdapter.allocateContiguous a n).map fun out => (out.1.pfn, out.2)

def deallocateContiguous (a : FrameAlloc) (pfn n : Nat) : FrameAlloc :=
  FrameAdapter.deallocateContiguous a (PhysFrame.fromPfn pfn) n

theorem allocate_eq (a : FrameAlloc) (n : Nat) : allocateContiguous a n = a.allocateContiguous n := by
  unfold allocateContiguous FrameAdapter.allocateContiguous
  simp only [Option.map_map, Function.comp_def, PhysFrame.pfn_fromPfn, Prod.mk.eta, Option.map_id']

theorem deallocate_eq (a : FrameAlloc) (pfn n : Nat) :
    deallocateContiguous a pfn n = a.deallocateContiguous pfn n := by
  unfold deallocateContiguous FrameAdapter.deallocateContiguous
  rw [PhysFrame.pfn_fromPfn]

end FrameProvider

/-- The global frame allocator, and whether it is registered as the provider
of the kernel heap. -/
structure KernelHeap where
  frames : FrameAlloc
  provider : Bool := false

/-- The null pointer. -/
def nullPtr : Nat := 0

namespace KernelHeap

def setFrameProvider (h : KernelHeap) : KernelHeap := { h with provider := true }

/-- `HeapAlloc::alloc`. -/
def alloc (h : KernelHeap) (layout : Layout) : Nat × KernelHeap :=
  if layout.size = 0 then (nullPtr, h)
  else if pageSize < layout.align then (nullPtr, h)
  else if h.provider then
    match FrameProvider.allocateContiguous h.frames (divCeil layout.size pageSize) with
    | none => (nullPtr, h)
    | some (pfn, a) => (pfn * pageSize, { h with frames := a })
  else (nullPtr, h)

/-- `HeapAlloc::dealloc`. -/
def dealloc (h : KernelHeap) (ptr : Nat) (layout : Layout) : KernelHeap :=
  if layout.size = 0 then h
  else if h.provider then
    { h with
      frames := FrameProvider.deallocateContiguous h.frames (ptr / pageSize) (divCeil layout.size pageSize) }
  else h

/-- A live block of the heap, with the run of frames it was cut from. -/
structure Block where
  ptr : Nat
  layout : Layout
  run : Run
  deriving DecidableEq

def Block.pages (block : Block) : Nat := divCeil block.layout.size pageSize

/-- The addresses of the block, rounded up to whole pages. -/
def Block.Covers (block : Block) (addr : Nat) : Prop :=
  block.ptr ≤ addr ∧ addr < block.ptr + block.pages * pageSize

/-- The addresses of a run of frames. -/
def runCovers (run : Run) (addr : Nat) : Prop := run.Has (addr / pageSize)

/-- Heap calls and direct calls of the frame allocator in any order, with the
live blocks and the live runs. A block is freed with its own layout, and a
run with its own length. -/
inductive Reach (start : FrameAlloc) : KernelHeap → List Block → List Run → Prop
  | boot : Reach start { frames := start } [] []
  | register {h blocks runs} : Reach start h blocks runs → Reach start h.setFrameProvider blocks runs
  | alloc {h h' blocks runs layout ptr pfn a} : Reach start h blocks runs → h.alloc layout = (ptr, h') →
      ptr ≠ nullPtr → FrameProvider.allocateContiguous h.frames (divCeil layout.size pageSize) = some (pfn, a) →
      Reach start h' (⟨ptr, layout, ⟨pfn, divCeil layout.size pageSize⟩⟩ :: blocks) runs
  | refused {h h' blocks runs layout} : Reach start h blocks runs → h.alloc layout = (nullPtr, h') →
      Reach start h' blocks runs
  | dealloc {h blocks runs block} : Reach start h blocks runs → block ∈ blocks →
      Reach start (h.dealloc block.ptr block.layout) (blocks.erase block) runs
  | take {h blocks runs n frame a} : Reach start h blocks runs →
      FrameAdapter.allocateContiguous h.frames n = some (frame, a) →
      Reach start { h with frames := a } blocks (⟨frame.pfn, n⟩ :: runs)
  | give {h blocks runs run} : Reach start h blocks runs → run ∈ runs →
      Reach start
        { h with frames := FrameAdapter.deallocateContiguous h.frames (PhysFrame.fromPfn run.start) run.count }
        blocks (runs.erase run)

theorem alloc_ok {h : KernelHeap} {layout : Layout} {pfn : Nat} {a : FrameAlloc} (positive : layout.size ≠ 0)
    (fits : layout.align ≤ pageSize) (registered : h.provider = true)
    (run : h.frames.allocateContiguous (divCeil layout.size pageSize) = some (pfn, a)) :
    h.alloc layout = (pfn * pageSize, { h with frames := a }) := by
  rw [alloc, if_neg positive, if_neg (Nat.not_lt_of_le fits), if_pos registered, FrameProvider.allocate_eq, run]

/-- The two ways in which `alloc` ends. -/
theorem alloc_cases (h : KernelHeap) (layout : Layout) :
    (h.alloc layout = (nullPtr, h) ∧ (layout.size = 0 ∨ pageSize < layout.align ∨ h.provider = false ∨
      h.frames.allocateContiguous (divCeil layout.size pageSize) = none)) ∨
    ∃ pfn a, layout.size ≠ 0 ∧ layout.align ≤ pageSize ∧ h.provider = true ∧
      h.frames.allocateContiguous (divCeil layout.size pageSize) = some (pfn, a) ∧
      h.alloc layout = (pfn * pageSize, { h with frames := a }) := by
  by_cases empty : layout.size = 0
  · exact Or.inl ⟨if_pos empty, Or.inl empty⟩
  by_cases coarse : pageSize < layout.align
  · exact Or.inl ⟨by rw [alloc, if_neg empty, if_pos coarse], Or.inr (Or.inl coarse)⟩
  cases registered : h.provider with
  | false =>
    refine Or.inl ⟨?_, Or.inr (Or.inr (Or.inl rfl))⟩
    rw [alloc, if_neg empty, if_neg coarse, registered, if_neg Bool.false_ne_true]
  | true =>
    cases run : h.frames.allocateContiguous (divCeil layout.size pageSize) with
    | none =>
      refine Or.inl ⟨?_, Or.inr (Or.inr (Or.inr rfl))⟩
      rw [alloc, if_neg empty, if_neg coarse, registered, if_pos rfl, FrameProvider.allocate_eq, run]
    | some out =>
      have fits := Nat.le_of_not_lt coarse
      refine Or.inr ⟨out.1, out.2, empty, fits, rfl, rfl, ?_⟩
      rw [alloc_ok empty fits registered run, registered]

/-- What is known of a live block. -/
structure Block.Ok (block : Block) : Prop where
  nonempty : block.layout.size ≠ 0
  fits : block.layout.align ≤ pageSize
  ptr : block.ptr = block.run.start * pageSize
  count : block.run.count = block.pages

theorem Block.Ok.covers_iff {block : Block} (ok : block.Ok) (addr : Nat) :
    block.Covers addr ↔ runCovers block.run addr := by
  unfold Block.Covers runCovers Run.Has
  rw [ok.ptr, ok.count]
  unfold pageSize
  omega

/-- Powers of two up to a page divide the page. -/
theorem Block.Ok.aligned {block : Block} (ok : block.Ok) : block.ptr % block.layout.align = 0 := by
  obtain ⟨e, power⟩ := block.layout.power
  have fits := ok.fits
  have page : pageSize = 2 ^ 12 := rfl
  rw [power, page] at fits
  have divides : block.layout.align ∣ pageSize := by
    rw [power, page]
    exact Nat.pow_dvd_pow 2 ((Nat.pow_le_pow_iff_right (by decide)).mp fits)
  rw [ok.ptr]
  exact Nat.mod_eq_zero_of_dvd (Nat.dvd_mul_left_of_dvd divides _)

theorem Block.Ok.dealloc {block : Block} (ok : block.Ok) {h : KernelHeap} (registered : h.provider = true) :
    h.dealloc block.ptr block.layout =
      { h with frames := h.frames.deallocateContiguous block.run.start block.run.count } := by
  unfold KernelHeap.dealloc
  rw [if_neg ok.nonempty, if_pos registered, FrameProvider.deallocate_eq, ok.ptr, ok.count,
    Nat.mul_div_cancel _ (by decide)]
  rfl

/-- The runs that hold a frame. A request for no frames changes nothing. -/
def nonempty (runs : List Run) : List Run := runs.filter fun run => 1 ≤ run.count

/-- The heap against the frame allocator's own history: the runs of the live
blocks and the live runs are what the allocator has handed out. -/
structure Backed (start : FrameAlloc) (h : KernelHeap) (blocks : List Block) (runs : List Run) : Prop where
  sound : ∀ block ∈ blocks, block.Ok
  registered : blocks ≠ [] → h.provider = true
  reach : ∃ live freed, FrameAlloc.AllocReach start h.frames live freed ∧
    live.Perm (blocks.map Block.run ++ nonempty runs)

section
variable {start : FrameAlloc} {h h' : KernelHeap} {blocks : List Block} {runs : List Run}

theorem Backed.alloc {layout : Layout} {ptr pfn : Nat} {a : FrameAlloc} (backed : Backed start h blocks runs)
    (out : h.alloc layout = (ptr, h')) (nonnull : ptr ≠ nullPtr)
    (obtained : FrameProvider.allocateContiguous h.frames (divCeil layout.size pageSize) = some (pfn, a)) :
    Backed start h' (⟨ptr, layout, ⟨pfn, divCeil layout.size pageSize⟩⟩ :: blocks) runs := by
  rw [FrameProvider.allocate_eq] at obtained
  rcases h.alloc_cases layout with ⟨null, _⟩ | ⟨pfn', a', positive, fits, registered, run, done⟩
  · rw [null] at out
    cases out
    exact absurd rfl nonnull
  · rw [done] at out
    cases out
    cases Option.some.inj (run.symm.trans obtained)
    obtain ⟨live, freed, reach, perm⟩ := backed.reach
    have pages : 1 ≤ divCeil layout.size pageSize := by
      rw [divCeil_page]
      omega
    exact ⟨List.forall_mem_cons.mpr ⟨⟨positive, fits, rfl, rfl⟩, backed.sound⟩, fun _ => registered,
      _, freed, reach.allocate pages run, perm.cons _⟩

theorem Backed.dealloc {block : Block} (backed : Backed start h blocks runs) (member : block ∈ blocks) :
    Backed start (h.dealloc block.ptr block.layout) (blocks.erase block) runs := by
  have registered := backed.registered (List.ne_nil_of_mem member)
  obtain ⟨live, freed, reach, perm⟩ := backed.reach
  have here : block.run ∈ live := perm.mem_iff.mpr (List.mem_append_left _ (List.mem_map_of_mem member))
  rw [(backed.sound block member).dealloc registered]
  refine ⟨fun other there => backed.sound other (List.mem_of_mem_erase there), fun _ => registered,
    _, _, reach.deallocate here, ?_⟩
  have split : (blocks.map Block.run).Perm (block.run :: (blocks.erase block).map Block.run) :=
    (List.perm_cons_erase member).map Block.run
  exact List.cons_perm_iff_perm_erase.mp ((perm.trans (split.append_right _)).symm) |>.2.symm

theorem Backed.take {n : Nat} {frame : PhysFrame} {a : FrameAlloc} (backed : Backed start h blocks runs)
    (taken : FrameAdapter.allocateContiguous h.frames n = some (frame, a)) :
    Backed start { h with frames := a } blocks (⟨frame.pfn, n⟩ :: runs) := by
  obtain ⟨⟨pfn, a'⟩, run, same⟩ := Option.map_eq_some_iff.mp taken
  cases same
  rw [PhysFrame.pfn_fromPfn]
  obtain ⟨live, freed, reach, perm⟩ := backed.reach
  refine ⟨backed.sound, backed.registered, ?_⟩
  by_cases positive : 1 ≤ n
  · refine ⟨_, freed, reach.allocate positive run, ?_⟩
    rw [nonempty, List.filter_cons_of_pos (by simpa using positive)]
    exact (perm.cons _).trans List.perm_middle.symm
  · obtain rfl : n = 0 := by omega
    obtain ⟨_, _, _, rfl⟩ := FrameAlloc.allocateContiguous_some run
    rw [nonempty, List.filter_cons_of_neg (by simp)]
    exact ⟨live, freed, reach, perm⟩

theorem Backed.give {run : Run} (backed : Backed start h blocks runs) (member : run ∈ runs) :
    Backed start
      { h with frames := FrameAdapter.deallocateContiguous h.frames (PhysFrame.fromPfn run.start) run.count }
      blocks (runs.erase run) := by
  unfold FrameAdapter.deallocateContiguous
  rw [PhysFrame.pfn_fromPfn]
  obtain ⟨live, freed, reach, perm⟩ := backed.reach
  refine ⟨backed.sound, backed.registered, ?_⟩
  have split : (nonempty runs).Perm (nonempty (run :: runs.erase run)) := (List.perm_cons_erase member).filter _
  by_cases positive : 1 ≤ run.count
  · rw [nonempty, nonempty, List.filter_cons_of_pos (by simpa using positive)] at split
    have here : run ∈ live := perm.mem_iff.mpr
      (List.mem_append_right _ (List.mem_filter.mpr ⟨member, by simpa using positive⟩))
    refine ⟨_, _, reach.deallocate here, ?_⟩
    have whole := perm.trans ((split.append_left (blocks.map Block.run)).trans List.perm_middle)
    exact (List.cons_perm_iff_perm_erase.mp whole.symm).2.symm
  · rw [nonempty, nonempty, List.filter_cons_of_neg (by simpa using positive)] at split
    rw [show run.count = 0 by omega, FrameAlloc.deallocate_zero]
    exact ⟨live, freed, reach, perm.trans (split.append_left _)⟩

/-- No block lies at the null pointer: the pages below `USED_PAGE` are kept. -/
theorem Backed.pfn_pos {map : MemoryMap} {n pfn : Nat} {a : FrameAlloc} (backed : Backed start h blocks runs)
    (initial : FrameAlloc.Initial map usedPage start) (positive : 1 ≤ n)
    (run : h.frames.allocateContiguous n = some (pfn, a)) : pfn * pageSize ≠ nullPtr := by
  obtain ⟨live, freed, reach, _⟩ := backed.reach
  obtain ⟨searched, _, free, _⟩ := FrameAlloc.allocateContiguous_some run
  have above := (reach.tracks initial).allocated_above initial positive searched free
  rw [initial.reserved] at above
  unfold usedPage at above
  unfold pageSize nullPtr
  omega

theorem Reach.backed {map : MemoryMap} (initial : FrameAlloc.Initial map usedPage start)
    (reach : Reach start h blocks runs) : Backed start h blocks runs := by
  induction reach with
  | boot => exact ⟨fun _ none => absurd none List.not_mem_nil, fun none => absurd rfl none, [], [], .init, .nil⟩
  | register _ ih => exact ⟨ih.sound, fun _ => rfl, ih.reach⟩
  | alloc _ out nonnull obtained ih => exact ih.alloc out nonnull obtained
  | @refused h h' blocks runs layout _ out ih =>
    rcases h.alloc_cases layout with ⟨null, _⟩ | ⟨pfn, a, positive, _, _, run, done⟩
    · rw [null] at out
      cases out
      exact ih
    · rw [done] at out
      have pages := divCeil_page layout.size
      exact absurd (congrArg Prod.fst out) (ih.pfn_pos initial (by omega) run)
  | dealloc _ member ih => exact ih.dealloc member
  | take _ taken ih => exact ih.take taken
  | give _ member ih => exact ih.give member

theorem Backed.alloc_null_iff {map : MemoryMap} (backed : Backed start h blocks runs)
    (initial : FrameAlloc.Initial map usedPage start) (layout : Layout) :
    (h.alloc layout).1 = nullPtr ↔ layout.size = 0 ∨ pageSize < layout.align ∨ h.provider = false ∨
      ¬h.frames.FreeRun (divCeil layout.size pageSize) := by
  obtain ⟨live, freed, reach, _⟩ := backed.reach
  have tracks := reach.tracks initial
  have pos : h.frames.reserved ≤ h.frames.pos := by
    have above := tracks.pos
    rw [tracks.reserved]
    omega
  rw [← FrameAlloc.allocateContiguous_none_iff _ pos]
  rcases h.alloc_cases layout with ⟨null, why⟩ | ⟨pfn, a, positive, fits, registered, run, done⟩
  · exact iff_of_true (congrArg Prod.fst null) why
  · have pages := divCeil_page layout.size
    refine iff_of_false (fun null => ?_) ?_
    · rw [done] at null
      exact backed.pfn_pos initial (by omega) run null
    · rw [registered, run]
      rintro (empty | coarse | missing | refused)
      · exact positive empty
      · omega
      · cases missing
      · cases refused

/-- The contract of the kernel heap. The list of live blocks holds every
pointer that `alloc` returned and that was not freed. -/
structure Contract (h : KernelHeap) (blocks : List Block) (runs : List Run) : Prop where
  aligned : ∀ block ∈ blocks, block.ptr % block.layout.align = 0
  blocksApart : blocks.Pairwise fun block other => ∀ addr, block.Covers addr → ¬other.Covers addr
  runsApart : ∀ block ∈ blocks, ∀ run ∈ runs, ∀ addr, block.Covers addr → ¬runCovers run addr
  null : ∀ layout, (h.alloc layout).1 = nullPtr ↔ layout.size = 0 ∨ pageSize < layout.align ∨
    h.provider = false ∨ ¬h.frames.FreeRun (divCeil layout.size pageSize)
  freed : ∀ block ∈ blocks, h.dealloc block.ptr block.layout =
    { h with frames := h.frames.deallocateContiguous block.run.start block.run.count }

theorem heap_contract {map : MemoryMap} (boot : FrameAlloc.init map usedPage = some start)
    (reach : Reach start h blocks runs) : Contract h blocks runs := by
  have initial := FrameAlloc.init_initial boot
  have backed := reach.backed initial
  obtain ⟨live, freed, history, perm⟩ := backed.reach
  have apart := (perm.pairwise_iff Run.Disjoint.symm).mp
    (List.pairwise_append.mp (history.tracks initial).disjoint).1
  obtain ⟨blocksApart, _, across⟩ := List.pairwise_append.mp apart
  refine ⟨fun block member => (backed.sound block member).aligned, ?_, fun block member run live addr here there => ?_,
    backed.alloc_null_iff initial, fun block member => ?_⟩
  · refine List.Pairwise.imp_of_mem (fun member other disjoint addr here there => ?_) (List.pairwise_map.mp blocksApart)
    exact disjoint _ (((backed.sound _ member).covers_iff addr).mp here)
      (((backed.sound _ other).covers_iff addr).mp there)
  · have positive : 1 ≤ run.count := by
      unfold runCovers Run.Has at there
      omega
    have kept : run ∈ nonempty runs := List.mem_filter.mpr ⟨live, by simpa using positive⟩
    exact across _ (List.mem_map_of_mem member) run kept _ (((backed.sound block member).covers_iff addr).mp here) there
  · exact (backed.sound block member).dealloc (backed.registered (List.ne_nil_of_mem member))

end

/-- Five bytes on the small machine get page 7681, and a frame taken directly
the next one. -/
theorem heap_contract_small_machine :
    ∃ h a, (setFrameProvider ⟨smallAlloc, false⟩).alloc ⟨5, 8, 3, rfl⟩ = (0x1e01 * pageSize, h) ∧
      FrameAdapter.allocateContiguous h.frames 1 = some (PhysFrame.fromPfn 0x1e02, a) ∧
      Contract { h with frames := a } [⟨0x1e01 * pageSize, ⟨5, 8, 3, rfl⟩, ⟨0x1e01, 1⟩⟩] [⟨0x1e02, 1⟩] := by
  have both : ((smallAlloc.allocateContiguous 1).bind fun one =>
      (one.2.allocateContiguous 1).map fun two => (one.1, two.1)) = some (0x1e01, 0x1e02) := by
    decide +kernel
  obtain ⟨⟨pfn, a1⟩, first, rest⟩ := Option.bind_eq_some_iff.mp both
  obtain ⟨⟨pfn', a2⟩, second, same⟩ := Option.map_eq_some_iff.mp rest
  cases same
  have out : (setFrameProvider ⟨smallAlloc, false⟩).alloc ⟨5, 8, 3, rfl⟩ = (0x1e01 * pageSize, ⟨a1, true⟩) :=
    alloc_ok (by decide) (by decide) rfl first
  have taken : FrameAdapter.allocateContiguous a1 1 = some (PhysFrame.fromPfn 0x1e02, a2) := by
    rw [FrameAdapter.allocateContiguous, second]
    rfl
  have reach : Reach smallAlloc ⟨a1, true⟩ [⟨0x1e01 * pageSize, ⟨5, 8, 3, rfl⟩, ⟨0x1e01, 1⟩⟩] [] :=
    .alloc (.register .boot) out (by decide) ((FrameProvider.allocate_eq ..).trans first)
  exact ⟨_, a2, out, taken, heap_contract init_small (reach.take taken)⟩

end KernelHeap

end ProkaKernel
