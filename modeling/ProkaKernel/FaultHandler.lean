import Mathlib.Logic.Relation
import ProkaKernel.HeapAccess
import ProkaKernel.RwLock

namespace ProkaKernel

/-- Who takes guards of the process tables: the page-fault handler, or other
code, interrupted or not. -/
inductive Party
  | handler
  | other (n : Nat)
deriving DecidableEq

/-- Where the handler is: before it reads the process table, in its call of
`process::remove`, or past it, in `hlt_loop`. -/
inductive FaultPhase
  | entered
  | removing (typ : ProcType) (index : Nat)
  | halted
deriving DecidableEq

/-- The kernel with the locks of its two process tables, during a page fault. -/
structure FaultState where
  kernel : Kernel
  locks : ProcType → RwLock Party := fun _ => .free
  phase : FaultPhase := .entered

section Model
variable (mapper : PageMapper) (pml4 addr : Nat)

/-- One step of the handler or of other code. The handler keeps its guard for
reading when it calls `process::remove`, which needs one for writing. Other
code changes a process table only under a guard for writing. -/
inductive FaultStep (s : FaultState) : FaultState → Prop
  | handles {typ index lock k} : s.phase = .entered → pagefaultProcess s.kernel.sched pml4 = some (typ, index) →
      (s.locks typ).tryRead .handler = some lock →
      (Kernel.pagefault mapper pml4 addr : Prog Kernel Error Unit) s.kernel = some (.ok (), k) →
      FaultStep s ⟨k, Function.update s.locks typ lock, .removing typ index⟩
  | removes {typ index lock k} : s.phase = .removing typ index → (s.locks typ).tryWrite .handler = some lock →
      Kernel.remove mapper typ index s.kernel = some (.ok (), k) → FaultStep s ⟨k, s.locks, .halted⟩
  | guards {typ party lock} : party ≠ .handler → (s.locks typ).Step party lock →
      FaultStep s { s with locks := Function.update s.locks typ lock }
  | works {k} : (∀ typ, (s.locks typ).writer = none → k.sched.slot typ = s.kernel.sched.slot typ) →
      FaultStep s { s with kernel := k }

/-- Any interleaving of the handler and other code. -/
def FaultRun : FaultState → FaultState → Prop := Relation.ReflTransGen (FaultStep mapper pml4 addr)

/-- The handler gets through its call of `process::remove`, which takes the
process off its table and its queue and changes nothing else. -/
def RemovesFaulting (s : FaultState) (typ : ProcType) (index : Nat) : Prop :=
  ∃ s', FaultRun mapper pml4 addr s s' ∧ s'.phase = .halted ∧ Removed s.kernel.sched s'.kernel.sched typ index

/-- The handler gets through to its end, with the page mapped as stack of the
process, and the processes and their queues as they were. -/
def GrowsStack (s : FaultState) (typ : ProcType) : Prop :=
  ∃ s' frame, FaultRun mapper pml4 addr s s' ∧ s'.phase = .halted ∧
    PageEntry s'.kernel.mem (pml4 / 4096) (addr / 4096) (pte frame (Kernel.stackFlags typ)) ∧ s'.kernel.sched = s.kernel.sched

end Model

/-- While the handler is in its call, it holds a guard for reading of the table
it wants to write to. -/
structure FaultState.Waits (s : FaultState) : Prop where
  guard : ∀ typ index, s.phase = .removing typ index → .handler ∈ (s.locks typ).readers
  unfinished : s.phase ≠ .halted

section Runs
variable {mapper : PageMapper} {pml4 addr : Nat} {s s' : FaultState}

theorem FaultState.waits_entered (entered : s.phase = .entered) : s.Waits where
  guard typ index removing := by rw [entered] at removing; cases removing
  unfinished := by rw [entered]; exact FaultPhase.noConfusion

theorem FaultState.Waits.step (waits : s.Waits) (step : FaultStep mapper pml4 addr s s') : s'.Waits := by
  cases step with
  | @handles typ index lock k _ _ reads _ =>
    refine ⟨fun typ' index' removing => ?_, FaultPhase.noConfusion⟩
    cases removing
    show _ ∈ (Function.update s.locks typ lock typ).readers
    rw [Function.update_self]
    exact RwLock.mem_tryRead reads
  | removes removing writes _ =>
    rw [RwLock.tryWrite_of_reader (waits.guard _ _ removing)] at writes
    cases writes
  | @guards typ party lock other step =>
    refine ⟨fun typ' index removing => ?_, waits.unfinished⟩
    have held := waits.guard typ' index removing
    show _ ∈ (Function.update s.locks typ lock typ').readers
    by_cases here : typ' = typ
    · subst here
      rw [Function.update_self]
      exact step.reader (Ne.symm other) held
    · rw [Function.update_of_ne here]
      exact held
  | works _ => exact ⟨waits.guard, waits.unfinished⟩

theorem FaultState.Waits.run (waits : s.Waits) (run : FaultRun mapper pml4 addr s s') : s'.Waits := by
  induction run with
  | refl => exact waits
  | tail _ step ih => exact ih.step step

/-- Nothing gets the handler out of its call, and meanwhile its process table
cannot change. -/
theorem FaultState.Waits.removing_step {typ : ProcType} {index : Nat} (waits : s.Waits) (removing : s.phase = .removing typ index)
    (step : FaultStep mapper pml4 addr s s') :
    s'.phase = .removing typ index ∧ s'.kernel.sched.slot typ = s.kernel.sched.slot typ := by
  have held := waits.guard typ index removing
  cases step with
  | handles entered =>
    rw [removing] at entered
    cases entered
  | removes again writes _ =>
    rw [RwLock.tryWrite_of_reader (waits.guard _ _ again)] at writes
    cases writes
  | guards _ _ => exact ⟨removing, rfl⟩
  | works same => exact ⟨removing, same typ (RwLock.writer_none_of_reader held)⟩

theorem FaultState.Waits.removing_run {typ : ProcType} {index : Nat} (waits : s.Waits) (removing : s.phase = .removing typ index)
    (run : FaultRun mapper pml4 addr s s') :
    s'.phase = .removing typ index ∧ s'.kernel.sched.slot typ = s.kernel.sched.slot typ := by
  induction run with
  | refl => exact ⟨removing, rfl⟩
  | tail before step ih =>
    obtain ⟨phase, same⟩ := (waits.run before).removing_step ih.1 step
    exact ⟨phase, same.trans ih.2⟩

end Runs

namespace Kernel
open Prog

section
variable {k : Kernel} {pml4 addr : Nat} {typ : ProcType} {index : Nat}

/-- The fault cannot be served: it is outside the stack of the process, or no
frame is left. -/
def Fatal (k : Kernel) (typ : ProcType) (index addr : Nat) : Prop :=
  ¬((k.sched.slot typ index).stackBottom ≤ addr ∧ addr < 0x7ffffffff000) ∨ k.alloc.allocateContiguous 1 = none

theorem pagefault_fatal (mapper : PageMapper) (found : pagefaultProcess k.sched pml4 = some (typ, index))
    (fatal : k.Fatal typ index addr) : (pagefault mapper pml4 addr : Prog Kernel Error Unit) k = some (.ok (), k) := by
  unfold pagefault
  rw [read_bind, found, unwrap_bind]
  dsimp only
  split
  · rename_i inside
    rw [bind_ok (allocateFrame_none (fatal.resolve_left (not_not.mpr inside)))]
    rfl
  · rfl

end

/-- The handler on a fault in a stack, with a frame for the page and tables in
which it can be mapped. -/
theorem pagefault_maps {mapper : PageMapper} {k : Kernel} {root addr frame : Nat} {typ : ProcType} {index : Nat}
    {a a' : FrameAlloc} {m' : Mem} (found : pagefaultProcess k.sched (root * 4096) = some (typ, index))
    (inside : (k.sched.slot typ index).stackBottom ≤ addr ∧ addr < 0x7ffffffff000)
    (run : k.alloc.allocateContiguous 1 = some (frame, a))
    (mapped : mapper.mapTo k.mem a root (addr / 4096) frame heapFlags = (true, m', a')) :
    (pagefault mapper (root * 4096) addr : Prog Kernel Error Unit) k = some (.ok (), { k with mem := m', alloc := a' }) := by
  have second : (pageAt addr : Prog Kernel Error Nat) { k with alloc := a } =
      some (.ok (addr / 4096), { k with alloc := a }) := by
    unfold pageAt
    rw [if_pos (by omega)]
    rfl
  have third : (mapTo mapper root (addr / 4096) frame heapFlags : Prog Kernel Error Bool) { k with alloc := a } =
      some (.ok true, { k with mem := m', alloc := a' }) := mapTo_run mapper mapped
  unfold pagefault
  rw [Nat.mul_div_cancel root (by decide), read_bind, found, unwrap_bind]
  dsimp only
  rw [if_pos inside, bind_ok (allocateFrame_some run)]
  dsimp only
  rw [bind_ok second, bind_ok third]
  rfl

/-- With frames for the page and its tables, the handler maps a page of the
stack before it goes on to remove the process. -/
theorem pagefault_grows (mapper : ExactMapper) {k : Kernel} {R : Set Nat} {pend : List Nat} {root addr : Nat} {typ : ProcType}
    {index : Nat} (stage : Stage k.sched R pend k) (member : root ∈ R) (small : SmallPages k.mem R)
    (wide : k.alloc.maxPage ≤ 2 ^ 40) (found : pagefaultProcess k.sched (root * 4096) = some (typ, index))
    (inside : (k.sched.slot typ index).stackBottom ≤ addr ∧ addr < 0x7ffffffff000)
    (free : translate k.mem root (addr / 4096) = none)
    (frames : missingTables k.mem root (addr / 4096) < k.alloc.freeFrames) :
    ∃ k' frame, (pagefault mapper.toPageMapper (root * 4096) addr : Prog Kernel Error Unit) k = some (.ok (), k') ∧
      k'.sched = k.sched ∧ PageEntry k'.mem root (addr / 4096) (pte frame heapFlags) := by
  have bound : addr / 4096 < 2 ^ 35 := by omega
  have ok : PageFlags.Ok heapFlags := by decide
  cases run : k.alloc.allocateContiguous 1 with
  | none =>
    have full := (stage.owns.guarded.refused_iff).mp run
    omega
  | some out =>
    obtain ⟨frame, a⟩ := out
    obtain ⟨taken, below, size, cost⟩ := stage.trail.takeFrame run
    have owns : Owns k.mem a R _ := taken.stage.owns
    cases mapped : mapper.mapTo k.mem a root (addr / 4096) frame heapFlags with
    | mk done rest =>
      obtain ⟨m', a'⟩ := rest
      cases done with
      | false =>
        obtain ⟨_, links, counts, tables, full⟩ := mapTo_counts_err owns member bound ok (by omega) small (by omega) mapped
        obtain ⟨none, missing⟩ := full free
        omega
      | true =>
        have entry := (mapper.mapTo_pageEntry owns member bound ok (List.mem_cons_self ..) mapped).2.1
        exact ⟨_, frame, pagefault_maps found inside run mapped, rfl, entry⟩

/-- A removal that returns has taken the process off. -/
theorem remove_takes_off {mapper : PageMapper} {k k' : Kernel} {typ : ProcType} {index : Nat}
    (run : remove mapper typ index k = some (.ok (), k')) : Removed k.sched k'.sched typ index := by
  have gone : wp (remove mapper typ index) (fun _ k' => Removed k.sched k'.sched typ index) (fun _ _ => True) k := by
    refine wp_bind (wp_read ?_)
    split
    · exact wp_fail trivial
    · rename_i s' removal
      exact wp_bind (wp_any fun _ _ => wp_write (remove_removed removal))
  exact gone.ok run

end Kernel

/-- A small machine with one process, whose stack has no page at `0x7fffffffd000`
yet. -/
theorem first_process : ∃ h tables,
    HeapKernel.Reach FourLevel.exactMapper.toPageMapper .amortized flatParse ⟨smallKernel, fun _ => {}⟩ h tables ∧
    0x1e02 * 4096 ∈ tables ∧ pagefaultProcess h.kernel.sched (0x1e02 * 4096) = some (.normal, 0) ∧
    (h.kernel.sched.slot .normal 0).stackBottom = 0x7fffffeff000 ∧ translate h.kernel.mem 0x1e02 0x7fffffffd = none ∧
    missingTables h.kernel.mem 0x1e02 0x7fffffffd < h.kernel.alloc.freeFrames ∧ h.kernel.alloc.maxPage ≤ 2 ^ 40 := by
  have run : ((⟨smallKernel, fun _ => {}⟩ : HeapKernel).step FourLevel.exactMapper.toPageMapper .amortized flatParse
      (.create [0x90] 0)).map (fun h => ((pagefaultProcess h.kernel.sched (0x1e02 * 4096),
        (h.kernel.sched.slot .normal 0).tableAddr, (h.kernel.sched.slot .normal 0).stackBottom),
        (translate h.kernel.mem 0x1e02 0x7fffffffd, missingTables h.kernel.mem 0x1e02 0x7fffffffd),
        ((h.kernel.alloc.allocateContiguous 1).isSome, decide (h.kernel.alloc.maxPage ≤ 2 ^ 40)))) =
      some ((some (.normal, 0), 0x1e02 * 4096, 0x7fffffeff000), (none, 0), (true, true)) := by
    decide +kernel
  obtain ⟨h, first, same⟩ := Option.map_eq_some_iff.mp run
  obtain ⟨process, same⟩ := Prod.mk.inj same
  obtain ⟨found, slot⟩ := Prod.mk.inj process
  obtain ⟨table, bottom⟩ := Prod.mk.inj slot
  obtain ⟨pages, memory⟩ := Prod.mk.inj same
  obtain ⟨free, none⟩ := Prod.mk.inj pages
  obtain ⟨frame, wide⟩ := Prod.mk.inj memory
  have reach : HeapKernel.Reach FourLevel.exactMapper.toPageMapper .amortized flatParse ⟨smallKernel, fun _ => {}⟩ h _ :=
    .next .boot (by exact trivial) first
  obtain ⟨R, sound, _⟩ := reach.sound smallKernel_boot
  have served : h.kernel.alloc.freeFrames ≠ 0 := fun full => by
    rw [sound.stage.owns.guarded.refused_iff.mpr full] at frame
    cases frame
  refine ⟨h, _, reach, Or.inr ⟨by decide, .normal, 0, table⟩, found, bottom, free, ?_, of_decide_eq_true wide⟩
  rw [none]
  exact Nat.pos_of_ne_zero served

/-- A fatal page fault is never got over: the handler reaches its call of
`process::remove`, and stays there under its own guard, in any interleaving. -/
theorem fatal_fault_never_completes (mapper : PageMapper) {pml4 addr : Nat} {s : FaultState} {typ : ProcType} {index : Nat}
    (entered : s.phase = .entered) (found : pagefaultProcess s.kernel.sched pml4 = some (typ, index))
    (fatal : s.kernel.Fatal typ index addr) :
    ¬RemovesFaulting mapper pml4 addr s typ index ∧
    (∀ s', FaultRun mapper pml4 addr s s' → s'.phase ≠ .halted) ∧
    ((s.locks typ).writer = none → ∃ s', FaultStep mapper pml4 addr s s' ∧ s'.phase = .removing typ index ∧
      s'.kernel = s.kernel ∧ ∀ s2, FaultRun mapper pml4 addr s' s2 →
        s2.phase = .removing typ index ∧ s2.kernel.sched.slot typ = s.kernel.sched.slot typ) := by
  have waits := FaultState.waits_entered entered
  have never (s') (run : FaultRun mapper pml4 addr s s') : s'.phase ≠ .halted := (waits.run run).unfinished
  refine ⟨?_, never, fun unlocked => ?_⟩
  · rintro ⟨s', run, halted, _⟩
    exact never s' run halted
  · obtain ⟨lock, reads, _⟩ := RwLock.tryRead_of_no_writer .handler unlocked
    have step : FaultStep mapper pml4 addr s _ := .handles entered found reads (Kernel.pagefault_fatal mapper found fatal)
    exact ⟨_, step, rfl, rfl, fun s2 run => (waits.step step).removing_run rfl run⟩

/-- The process follows a null pointer while nobody holds the tables: the handler
gets to its call and stays there. -/
theorem null_pointer_never_completes : ∃ h tables,
    HeapKernel.Reach FourLevel.exactMapper.toPageMapper .amortized flatParse ⟨smallKernel, fun _ => {}⟩ h tables ∧
    ∃ s', FaultStep FourLevel.mapper (0x1e02 * 4096) 0 { kernel := h.kernel } s' ∧ s'.phase = .removing .normal 0 ∧
      ∀ s2, FaultRun FourLevel.mapper (0x1e02 * 4096) 0 s' s2 → s2.phase = .removing .normal 0 := by
  obtain ⟨h, tables, reach, _, found, bottom, _⟩ := first_process
  have fatal : h.kernel.Fatal .normal 0 0 := Or.inl (by rw [bottom]; decide)
  obtain ⟨_, _, reaches⟩ := fatal_fault_never_completes FourLevel.mapper (s := { kernel := h.kernel }) rfl found fatal
  obtain ⟨s', step, phase, _, stays⟩ := reaches rfl
  exact ⟨h, tables, reach, s', step, phase, fun s2 run => (stays s2 run).1⟩

/-- The same process is not removed. -/
theorem null_pointer_not_removed : ∃ h tables,
    HeapKernel.Reach FourLevel.exactMapper.toPageMapper .amortized flatParse ⟨smallKernel, fun _ => {}⟩ h tables ∧
    pagefaultProcess h.kernel.sched (0x1e02 * 4096) = some (.normal, 0) ∧ h.kernel.Fatal .normal 0 0 ∧
    ¬RemovesFaulting FourLevel.mapper (0x1e02 * 4096) 0 { kernel := h.kernel } .normal 0 := by
  obtain ⟨h, tables, reach, _, found, bottom, _⟩ := first_process
  refine ⟨h, tables, reach, found, Or.inl (by rw [bottom]; decide), ?_⟩
  rintro ⟨s', run, halted, _⟩
  exact ((FaultState.waits_entered rfl).run run).unfinished halted

/-- A page fault in the range of a stack is never got over either: the handler
maps the page, without the rights of a user's stack, and then goes on to remove
the process all the same, where it stays. -/
theorem stack_growth_never_completes (mapper : ExactMapper) (growth : VecGrowth) (parse : List UInt8 → Option Image)
    {map : MemoryMap} {start : Kernel} {h : HeapKernel} {tables : Set Nat} (boot : start.Boot map)
    (reach : HeapKernel.Reach mapper.toPageMapper growth parse ⟨start, fun _ => {}⟩ h tables) (locks : ProcType → RwLock Party)
    {pml4 addr : Nat} {typ : ProcType} {index : Nat} (found : pagefaultProcess h.kernel.sched pml4 = some (typ, index))
    (inside : (h.kernel.sched.slot typ index).stackBottom ≤ addr ∧ addr < 0x7ffffffff000)
    (free : translate h.kernel.mem (pml4 / 4096) (addr / 4096) = none)
    (frames : missingTables h.kernel.mem (pml4 / 4096) (addr / 4096) < h.kernel.alloc.freeFrames) :
    ¬GrowsStack mapper.toPageMapper pml4 addr ⟨h.kernel, locks, .entered⟩ typ ∧
    (pml4 ∈ tables → h.kernel.alloc.maxPage ≤ 2 ^ 40 → (locks typ).writer = none →
      ∃ s' frame, FaultStep mapper.toPageMapper pml4 addr ⟨h.kernel, locks, .entered⟩ s' ∧ s'.phase = .removing typ index ∧
        s'.kernel.sched = h.kernel.sched ∧ PageEntry s'.kernel.mem (pml4 / 4096) (addr / 4096) (pte frame Kernel.heapFlags)) ∧
    (Kernel.heapFlags = Kernel.stackFlags typ ↔ typ = .driver) ∧
    ∀ k k', Kernel.remove mapper.toPageMapper typ index k = some (.ok (), k') → Removed k.sched k'.sched typ index := by
  refine ⟨?_, fun caller wide unlocked => ?_, ?_, fun k k' => Kernel.remove_takes_off⟩
  · rintro ⟨s', _, run, halted, _⟩
    exact ((FaultState.waits_entered rfl).run run).unfinished halted
  · obtain ⟨R, sound, known⟩ := HeapKernel.Reach.sound boot reach
    obtain ⟨root, member, rfl⟩ := known pml4 caller
    rw [Nat.mul_div_cancel root (by decide)] at free frames ⊢
    obtain ⟨k', frame, body, sched, entry⟩ :=
      Kernel.pagefault_grows mapper sound.stage member sound.small wide found inside free frames
    obtain ⟨lock, reads, _⟩ := RwLock.tryRead_of_no_writer .handler unlocked
    exact ⟨_, frame, .handles rfl found reads body, rfl, sched, entry⟩
  · cases typ <;> decide

/-- The stack of the process should grow by a page: the page gets mapped, and the
handler hangs. -/
theorem first_stack_growth_hangs : ∃ h tables,
    HeapKernel.Reach FourLevel.exactMapper.toPageMapper .amortized flatParse ⟨smallKernel, fun _ => {}⟩ h tables ∧
    ∃ s' frame, FaultStep FourLevel.mapper (0x1e02 * 4096) 0x7fffffffd123 { kernel := h.kernel } s' ∧
      s'.phase = .removing .normal 0 ∧ PageEntry s'.kernel.mem 0x1e02 0x7fffffffd (pte frame Kernel.heapFlags) ∧
      ¬GrowsStack FourLevel.mapper (0x1e02 * 4096) 0x7fffffffd123 { kernel := h.kernel } .normal := by
  obtain ⟨h, tables, reach, caller, found, bottom, free, frames, wide⟩ := first_process
  have inside : (h.kernel.sched.slot .normal 0).stackBottom ≤ 0x7fffffffd123 ∧ 0x7fffffffd123 < 0x7ffffffff000 := by
    rw [bottom]
    decide
  obtain ⟨never, grows, _⟩ := stack_growth_never_completes FourLevel.exactMapper .amortized flatParse smallKernel_boot reach
    (fun _ => .free) found inside free frames
  obtain ⟨s', frame, step, phase, _, entry⟩ := grows caller wide rfl
  exact ⟨h, tables, reach, s', frame, step, phase, entry, never⟩

/-- What the process gets is no stack of a user, and not a handler that ends. -/
theorem first_stack_growth_fails : ∃ h tables,
    HeapKernel.Reach FourLevel.exactMapper.toPageMapper .amortized flatParse ⟨smallKernel, fun _ => {}⟩ h tables ∧
    pagefaultProcess h.kernel.sched (0x1e02 * 4096) = some (.normal, 0) ∧
    (h.kernel.sched.slot .normal 0).stackBottom ≤ 0x7fffffffd123 ∧ translate h.kernel.mem 0x1e02 0x7fffffffd = none ∧
    missingTables h.kernel.mem 0x1e02 0x7fffffffd < h.kernel.alloc.freeFrames ∧
    ¬GrowsStack FourLevel.mapper (0x1e02 * 4096) 0x7fffffffd123 { kernel := h.kernel } .normal := by
  obtain ⟨h, tables, reach, _, found, bottom, free, frames, _⟩ := first_process
  refine ⟨h, tables, reach, found, by rw [bottom]; decide, free, frames, ?_⟩
  rintro ⟨s', _, run, halted, _⟩
  exact ((FaultState.waits_entered rfl).run run).unfinished halted

end ProkaKernel
