import ProkaKernel.CreateOutcome

namespace ProkaKernel

/-- The contract of a process's heap calls from `start` on. No sequence of calls
panics; after each, the ranges are in order, their pages are exactly what was
mapped since `start`, and a further range is handed out apart from all others. -/
def HeapState.Safe (mapper : PageMapper) (growth : VecGrowth) (root pid : Nat) (start : HeapState) : Prop :=
  ∀ calls, ∃ h, start.calls mapper growth (root * 4096) calls = some h ∧ Shaped (h.live pid) ∧
    Heaped root start.kernel h.kernel (heapPages (h.live pid)) ∧
    ∀ size addr h', h.call mapper growth (root * 4096) (.allocate size) = some (.ok addr, h') →
      0 < addr ∧ ∀ r ∈ h.live pid, (r.stop : Int) ≤ addr ∨ addr + 4096 * divCeil size.toNat pageSize ≤ r.start

namespace TaskKernel
open Kernel Prog

/-- The heap of the normal process created last. -/
def newestHeap (t : TaskKernel) : HeapState := ⟨t.kernel, t.buffers (t.kernel.newestSlot .normal)⟩

/-- The process created last keeps the contract. -/
def HeapSafe (mapper : PageMapper) (growth : VecGrowth) (t : TaskKernel) : Prop :=
  t.newestHeap.Safe mapper growth (t.kernel.newestTable .normal) (t.kernel.newestSlot .normal)

section
variable {t t' : TaskKernel} {R : Set Nat} {data : List UInt8} {image : Image} {root id : Nat}

theorem Spawned.plain (spawned : Spawned R data image root id t t') (wide : t.kernel.alloc.maxPage ≤ 2 ^ 40) :
    t'.kernel.Plain (insert root R) := by
  have heap := spawned.follows.sound.heap
  refine ⟨heap.valid.stage.owns.restrict Set.Subset.rfl (Set.empty_subset _), heap.small, ?_, heap.sized⟩
  have pages : t'.kernel.alloc.maxPage = t.kernel.alloc.maxPage := congrArg Prod.fst spawned.follows.edits.shape
  rw [pages]
  exact wide

theorem Spawned.newestHeap (spawned : Spawned R data image root id t t') (normal : image.procType = .normal) :
    t'.newestHeap = ⟨t'.kernel, {}⟩ := by
  have slot := newestSlot_created spawned.created
  rw [normal] at slot
  rw [TaskKernel.newestHeap, slot, spawned.empty normal]

theorem Spawned.newestTable (spawned : Spawned R data image root id t t') (normal : image.procType = .normal) :
    t'.kernel.newestTable .normal = root :=
  normal ▸ newestTable_created spawned.created

/-- A new process has no heap yet. -/
theorem Spawned.packed (spawned : Spawned R data image root id t t') (normal : image.procType = .normal) :
    HeapState.Packed t'.kernel (insert root R) root id 0 ⟨t'.kernel, {}⟩ := by
  have valid := spawned.follows.sound.heap.valid
  have created := spawned.created
  rw [normal] at created
  have present : (t'.kernel.sched.slot .normal id).present = true := by rw [created.slot]; rfl
  have table : (t'.kernel.sched.slot .normal id).tableAddr = root * 4096 := by rw [created.slot]; rfl
  have found := valid.firstSlot_table created.bound present
  rw [table] at found
  have empty : HeapState.live ⟨t'.kernel, {}⟩ id = [] := by
    show (t'.kernel.sched.slot .normal id).heapRange = []
    rw [created.slot]
    rfl
  have unbuffered : ({} : Buffer).frames 16 = [] := rfl
  refine ⟨⟨found, empty.symm ▸ Shaped.nil, ?_, ?_⟩, empty⟩
  · rw [empty, heapPages_nil]
    exact Heaped.refl
  · rw [unbuffered]
    exact valid.stage.trail

theorem Spawned.safe_iff (mapper : ExactMapper) (growth : VecGrowth) (spawned : Spawned R data image root id t t')
    (wide : t.kernel.alloc.maxPage ≤ 2 ^ 40) (normal : image.procType = .normal) :
    t'.HeapSafe mapper.toPageMapper growth ↔ t'.kernel.NoHeap root := by
  have plain := spawned.plain wide
  have packed := spawned.packed normal
  have member := Set.mem_insert root R
  have slot := newestSlot_created spawned.created
  rw [normal] at slot
  rw [HeapSafe, spawned.newestHeap normal, spawned.newestTable normal, slot]
  constructor
  · intro safe
    by_contra heap
    obtain ⟨free, enough⟩ := not_or.mp heap
    obtain ⟨calls, panic⟩ := packed.panics_from_start mapper growth plain member (not_not.mp free) (Nat.lt_of_not_le enough)
    obtain ⟨h, run, _⟩ := safe calls
    rw [panic] at run
    cases run
  · intro blocked calls
    obtain ⟨h, run⟩ := packed.calls_blocked mapper growth plain member blocked calls
    have sound := packed.sound.calls mapper growth member calls run
    exact ⟨h, run, sound.shaped, sound.heaped, fun size addr h' => sound.allocated mapper growth member⟩

/-- The call of a new process that gets no heap. -/
theorem Spawned.refused (mapper : ExactMapper) (growth : VecGrowth) (spawned : Spawned R data image root id t t')
    (wide : t.kernel.alloc.maxPage ≤ 2 ^ 40) (normal : image.procType = .normal) (blocked : t'.kernel.NoHeap root) :
    ∃ h, t'.call mapper.toPageMapper growth (root * 4096) (.allocate 1) = some (.error (-18), h) := by
  have packed := spawned.packed normal
  have caller : t'.caller (root * 4096) = id := congrArg (fun found => found.getD 0) packed.sound.found
  obtain ⟨k, run, _⟩ := packed.allocate_blocked mapper growth (spawned.plain wide) (Set.mem_insert root R) blocked
    (show (1 : UInt64).toNat ≠ 0 by decide)
  have call : HeapState.call mapper.toPageMapper growth (root * 4096) ⟨t'.kernel, {}⟩ (.allocate 1) =
      some (.error (-18), ⟨k, {}⟩) := by
    rw [HeapState.call, run]
  refine ⟨⟨k, Function.update t'.buffers id {}⟩, ?_⟩
  rw [HeapKernel.call, caller, spawned.empty normal, call]

/-- What the memory is like when the address space is made stays so. -/
theorem create_space {mapper : PageMapper} {growth : VecGrowth} {parse : List UInt8 → Option Image} {priority : Nat}
    {map : MemoryMap} {start : Kernel} {P : Nat → Mem → Prop} (boot : start.Boot map) (parsed : parse data = some image)
    (space : ∀ root k, buildSpace mapper growth data image start = some (.ok root, k) → P root k.mem)
    (created : create mapper growth parse data priority (fresh start) = some (.ok (), t)) :
    ∃ root id, Spawned ∅ data image root id (fresh start) t ∧ P root t.kernel.mem := by
  have sound := Sound.boot boot
  have way : wp (create mapper growth parse data priority)
      (fun _ t => ∃ root id, Spawned ∅ data image root id (fresh start) t ∧ P root t.kernel.mem) (fun _ _ => True)
      (fresh start) := by
    refine wp_bind (wp_orFail (fun other same => ?_) fun _ => trivial)
    cases Option.some.inj (parsed.symm.trans same)
    split
    · have built := buildSpace_wp growth mapper data image sound.heap.valid.stage
      refine wp_bind (wp_within ((built.and (wp_of_ok space)).mono ?_ fun _ _ _ => trivial))
      rintro root k ⟨space, known⟩
      refine (sound.enlist growth priority space).mono ?_ fun _ _ => False.elim
      rintro _ t ⟨same, id, spawned⟩
      exact ⟨root, id, spawned, same.symm ▸ known⟩
    · exact wp_fail trivial
  exact way.ok created

/-- Two tables are missing on the way to the start of the heap. -/
def TwoMissing (root : Nat) (m : Mem) : Prop := translate m root 0x180000 = none ∧ missingTables m root 0x180000 = 2

/-- The first process of one byte, on a machine with enough memory for it. -/
theorem first_process {pages : Nat} {map : MemoryMap} (boot : (ramKernel pages).Boot map) (enough : 0x218c ≤ pages)
    (wide : pages ≤ 2 ^ 40)
    (computed : ((buildSpace FourLevel.exactMapper.toPageMapper .amortized [0x90] ⟨true, false, [⟨0, 1, true, true⟩]⟩
      (ramKernel pages)).map fun out => out.1.toOption.map fun root =>
        (translate out.2.mem root 0x180000, missingTables out.2.mem root 0x180000)) = some (some (none, 2))) :
    ∃ t root id, create FourLevel.exactMapper.toPageMapper .amortized flatParse [0x90] 0 (fresh (ramKernel pages)) =
        some (.ok (), t) ∧ t.kernel.alloc.freeFrames + 0x218c = pages ∧
      Spawned ∅ [0x90] ⟨true, false, [⟨0, 1, true, true⟩]⟩ root id (fresh (ramKernel pages)) t ∧
      TwoMissing root t.kernel.mem := by
  obtain ⟨t, run, free⟩ := create_first_process boot enough wide
  have parsed : flatParse [0x90] = some ⟨true, false, [⟨0, 1, true, true⟩]⟩ := rfl
  have space (root : Nat) (k : Kernel) (made : buildSpace FourLevel.exactMapper.toPageMapper .amortized [0x90]
      ⟨true, false, [⟨0, 1, true, true⟩]⟩ (ramKernel pages) = some (.ok root, k)) : TwoMissing root k.mem := by
    rw [made] at computed
    exact Prod.mk.inj (Option.some.inj (Option.some.inj computed))
  obtain ⟨root, id, spawned, missing⟩ := create_space boot parsed space run
  exact ⟨t, root, id, run, free, spawned, missing⟩

/-- The heap calls of a new process keep their contract exactly if the process
gets no heap. -/
theorem heap_safe_iff (mapper : ExactMapper) (growth : VecGrowth) (parse : List UInt8 → Option Image) {map : MemoryMap}
    {start : Kernel} {tables : Set Nat} {priority : Nat} (boot : start.Boot map) (wide : start.alloc.maxPage ≤ 2 ^ 40)
    (reach : Reach mapper.toPageMapper growth parse (fresh start) t tables) (parsed : parse data = some image)
    (normal : image.procType = .normal)
    (created : create mapper.toPageMapper growth parse data priority t = some (.ok (), t')) :
    t'.HeapSafe mapper.toPageMapper growth ↔ t'.kernel.NoHeap (t'.kernel.newestTable .normal) := by
  obtain ⟨R, follows, _⟩ := reach.follows boot
  obtain ⟨_, root, id, same, spawned⟩ := follows.sound.spawned created
  cases Option.some.inj (parsed.symm.trans same)
  have pages : t.kernel.alloc.maxPage = start.alloc.maxPage := congrArg Prod.fst follows.edits.shape
  rw [spawned.newestTable normal]
  exact spawned.safe_iff mapper growth (pages ▸ wide) normal

end

/-- On a machine with 907 free frames a process of one byte takes them all, with
the process table and the queue, and its heap calls only fail. -/
theorem heap_safe_full_machine :
    ∃ t, create FourLevel.exactMapper.toPageMapper .amortized flatParse [0x90] 0 (fresh (ramKernel 0x218c)) =
        some (.ok (), t) ∧ t.HeapSafe FourLevel.exactMapper.toPageMapper .amortized := by
  have boot : (ramKernel 0x218c).Boot [⟨0, 0x218c000, .freeRAM⟩] :=
    ramKernel_boot (by decide) (by decide) (by decide)
  obtain ⟨t, run, free⟩ := create_first_process boot (by decide) (by decide)
  have wide : (ramKernel 0x218c).alloc.maxPage ≤ 2 ^ 40 := by show 0x218c ≤ 2 ^ 40; decide
  have safe_iff := heap_safe_iff FourLevel.exactMapper .amortized flatParse boot wide .boot rfl rfl run
  exact ⟨t, run, safe_iff.mpr (Or.inr (by omega))⟩

/-- With three frames more it gets a page for its heap and the tables on the way,
and the kernel panics because the list of pages finds no room. -/
theorem heap_call_panics :
    ∃ t, create FourLevel.exactMapper.toPageMapper .amortized flatParse [0x90] 0 (fresh (ramKernel 0x218f)) =
        some (.ok (), t) ∧
      t.newestHeap.calls FourLevel.exactMapper.toPageMapper .amortized (t.kernel.newestTable .normal * 4096) [.allocate 1] =
        none ∧ ¬t.HeapSafe FourLevel.exactMapper.toPageMapper .amortized := by
  have boot : (ramKernel 0x218f).Boot [⟨0, 0x218f000, .freeRAM⟩] :=
    ramKernel_boot (by decide) (by decide) (by decide)
  obtain ⟨t, root, id, run, free, spawned, unmapped, tables⟩ := first_process boot (by decide) (by decide) (by decide +kernel)
  have wide : (ramKernel 0x218f).alloc.maxPage ≤ 2 ^ 40 := by show 0x218f ≤ 2 ^ 40; decide
  have call := (spawned.packed rfl).allocate_panics FourLevel.exactMapper .amortized (spawned.plain wide)
    (Set.mem_insert root ∅) unmapped (show t.kernel.alloc.freeFrames = missingTables t.kernel.mem root 0x180000 + 1 by omega)
  have panic : t.newestHeap.calls FourLevel.exactMapper.toPageMapper .amortized (t.kernel.newestTable .normal * 4096)
      [.allocate 1] = none := by
    rw [spawned.newestHeap rfl, spawned.newestTable rfl, HeapState.calls, call]
    rfl
  refine ⟨t, run, panic, fun safe => ?_⟩
  obtain ⟨h, returned, _⟩ := safe [.allocate 1]
  cases panic.symm.trans returned

end TaskKernel

namespace HeapKernel

/-- A refused `allocate` leaves nothing behind exactly if it withdraws. It does
so only if the frames run out right before a page, not on the way to it; and if
the lowest frame that is handed out is in use, this is enough. -/
theorem failed_allocate_rolls_back (mapper : ExactMapper) (growth : VecGrowth) {h h' : HeapKernel} {R : Set Nat}
    {root : Nat} {size : UInt64} {e : Int} (sound : h.Sound R) (member : root ∈ R)
    (wide : h.kernel.alloc.maxPage ≤ 2 ^ 40)
    (run : h.call mapper.toPageMapper growth (root * 4096) (.allocate size) = some (.error e, h')) :
    (RolledBack h h' root ↔ h.Withdraws growth root size) ∧
    (FrameAlloc.Used h.kernel.alloc.bitmap (h.kernel.alloc.reserved + h.kernel.alloc.selfUsedPage) →
      (RolledBack h h' root ↔ h.RunsOut growth root size)) ∧
    (RolledBack h h' root → h.RunsOut growth root size) := by
  obtain ⟨exactly, only, enough⟩ := sound.rolls_back member wide run
  exact ⟨exactly, fun inUse => ⟨only, enough inUse⟩, only⟩

/-- The first process asks for one byte on a machine with 907 free frames, all of
which its creation takes: nothing is left behind. -/
theorem failed_allocate_full_machine :
    ∃ t h root, TaskKernel.create FourLevel.exactMapper.toPageMapper .amortized flatParse [0x90] 0
        (.fresh (ramKernel 0x218c)) = some (.ok (), t) ∧ t.kernel.newestTable .normal = root ∧
      t.call FourLevel.exactMapper.toPageMapper .amortized (root * 4096) (.allocate 1) = some (.error (-18), h) ∧
      RolledBack t.toHeapKernel h root := by
  have boot : (ramKernel 0x218c).Boot [⟨0, 0x218c000, .freeRAM⟩] :=
    ramKernel_boot (by decide) (by decide) (by decide)
  obtain ⟨t, root, id, run, free, spawned, _⟩ := TaskKernel.first_process boot (by decide) (by decide) (by decide +kernel)
  have wide : (ramKernel 0x218c).alloc.maxPage ≤ 2 ^ 40 := by show 0x218c ≤ 2 ^ 40; decide
  have sound := spawned.follows.sound.heap
  obtain ⟨h, call⟩ := spawned.refused FourLevel.exactMapper .amortized wide rfl (Or.inr (by omega))
  have exactly := (failed_allocate_rolls_back FourLevel.exactMapper .amortized sound (Set.mem_insert root ∅)
    (spawned.plain wide).wide call).1
  have none := sound.stage.owns.guarded.refused_iff.mpr (show t.kernel.alloc.freeFrames = 0 by omega)
  exact ⟨t, h, root, run, spawned.newestTable rfl, call, exactly.mpr (Or.inr fun pid _ => .stop none)⟩

/-- With one frame more the page gets it, but there is none for its tables, and
the frame is lost. -/
theorem failed_allocate_loses_frame :
    ∃ t h root, TaskKernel.create FourLevel.exactMapper.toPageMapper .amortized flatParse [0x90] 0
        (.fresh (ramKernel 0x218d)) = some (.ok (), t) ∧ t.kernel.newestTable .normal = root ∧
      t.call FourLevel.exactMapper.toPageMapper .amortized (root * 4096) (.allocate 1) = some (.error (-18), h) ∧
      ¬RolledBack t.toHeapKernel h root := by
  have boot : (ramKernel 0x218d).Boot [⟨0, 0x218d000, .freeRAM⟩] :=
    ramKernel_boot (by decide) (by decide) (by decide)
  obtain ⟨t, root, id, run, free, spawned, _, tables⟩ :=
    TaskKernel.first_process boot (by decide) (by decide) (by decide +kernel)
  have wide : (ramKernel 0x218d).alloc.maxPage ≤ 2 ^ 40 := by show 0x218d ≤ 2 ^ 40; decide
  obtain ⟨h, call⟩ := spawned.refused FourLevel.exactMapper .amortized wide rfl (Or.inr (by omega))
  refine ⟨t, h, root, run, spawned.newestTable rfl, call, fun back => ?_⟩
  have sound := spawned.follows.sound.heap
  have out := (sound.rolls_back (Set.mem_insert root ∅) (spawned.plain wide).wide call).2.1 back
  obtain ⟨i, inside, frames, _⟩ := out.resolve_left (by decide) id (spawned.packed rfl).sound.found
  have first : i = 0 := Nat.lt_one_iff.mp inside
  rw [first, heapCost_zero] at frames
  omega

end HeapKernel

end ProkaKernel
