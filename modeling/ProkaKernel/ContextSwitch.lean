import ProkaKernel.KernelWindow
import ProkaKernel.SyscallEntry
import ProkaKernel.X86Frames

namespace ProkaKernel
open X86 Paging PageFlags

namespace Context

/-- The words of a context in memory, in the order of its fields. -/
def words (context : Context) : List UInt64 :=
  [context.rax, context.rbx, context.rcx, context.rdx, context.rsi, context.rdi, context.rsp, context.rbp, context.r8,
    context.r9, context.r10, context.r11, context.r12, context.r13, context.r14, context.r15, context.rflags, context.rip,
    context.cs, context.ss].map UInt64.ofNat

/-- The value of a register in a context. -/
def reg (context : Context) : Reg → UInt64
  | .rax => .ofNat context.rax
  | .rbx => .ofNat context.rbx
  | .rcx => .ofNat context.rcx
  | .rdx => .ofNat context.rdx
  | .rsi => .ofNat context.rsi
  | .rdi => .ofNat context.rdi
  | .rsp => .ofNat context.rsp
  | .rbp => .ofNat context.rbp
  | .r8 => .ofNat context.r8
  | .r9 => .ofNat context.r9
  | .r10 => .ofNat context.r10
  | .r11 => .ofNat context.r11
  | .r12 => .ofNat context.r12
  | .r13 => .ofNat context.r13
  | .r14 => .ofNat context.r14
  | .r15 => .ofNat context.r15

/-- The number of a register among the fields. -/
def field : Reg → Nat
  | .rax => 0
  | .rbx => 1
  | .rcx => 2
  | .rdx => 3
  | .rsi => 4
  | .rdi => 5
  | .rsp => 6
  | .rbp => 7
  | .r8 => 8
  | .r9 => 9
  | .r10 => 10
  | .r11 => 11
  | .r12 => 12
  | .r13 => 13
  | .r14 => 14
  | .r15 => 15

/-- `offset_of!` for the field with this number. -/
def offset (i : Nat) : UInt64 := .ofNat (8 * i)

def offReg (r : Reg) : UInt64 := offset (field r)
def offRflags : UInt64 := offset 16
def offRip : UInt64 := offset 17
def offCs : UInt64 := offset 18
def offSs : UInt64 := offset 19

theorem words_field (context : Context) (r : Reg) : context.words[field r]? = some (context.reg r) := by
  cases r <;> rfl

/-- What `iretq` takes of a context. -/
def frame (context : Context) : IretFrame where
  rip := .ofNat context.rip
  cs := .ofNat context.cs
  rflags := .ofNat context.rflags
  ss := .ofNat context.ss

end Context

namespace ContextSwitch
open Context

/-- The last block of `switch_task` up to its `iretq`. RDI points to the context
and RAX is the table. -/
def loadContext : List Op := [
  .pushWord .rdi offSs,
  .pushWord .rdi (offReg .rsp),
  .pushWord .rdi offRflags,
  .pushWord .rdi offCs,
  .pushWord .rdi offRip,
  .plain (.writeCr3 .rax),
  .mfence,
  .load .rax .rdi (offReg .rax),
  .load .rbx .rdi (offReg .rbx),
  .load .rcx .rdi (offReg .rcx),
  .load .rdx .rdi (offReg .rdx),
  .load .rsi .rdi (offReg .rsi),
  .load .rbp .rdi (offReg .rbp),
  .load .r8 .rdi (offReg .r8),
  .load .r9 .rdi (offReg .r9),
  .load .r10 .rdi (offReg .r10),
  .load .r11 .rdi (offReg .r11),
  .load .r12 .rdi (offReg .r12),
  .load .r13 .rdi (offReg .r13),
  .load .r14 .rdi (offReg .r14),
  .load .r15 .rdi (offReg .r15),
  .load .rdi .rdi (offReg .rdi)]

/-- The fields that are pushed for `iretq`. -/
def pushedFields : List Nat := [19, 6, 16, 18, 17]

/-- The registers that are loaded before RDI. -/
def loadedRegs : List Reg := [.rax, .rbx, .rcx, .rdx, .rsi, .rbp, .r8, .r9, .r10, .r11, .r12, .r13, .r14, .r15]

/-- What is pushed, with the offsets it is taken from. -/
def pushedWords (context : Context) : List (UInt64 × UInt64) :=
  pushedFields.map fun i => (offset i, context.words.getD i 0)

theorem loadContext_blocks (context : Context) :
    loadContext = ((pushedWords context).map fun e => .pushWord .rdi e.1) ++ ([.plain (.writeCr3 .rax), .mfence] ++
      ((loadedRegs.map fun r => .load r .rdi (offReg r)) ++ [.load .rdi .rdi (offReg .rdi)])) := rfl

/-- Where `switch_task` is when it loads a context: in a window of memory lie its
stack, with room for the five words, and the context, not below one another. -/
structure Ready (c : Cpu) (lo size : Nat) (context : Context) : Prop where
  rsp : lo + 40 ≤ (c.regs .rsp).toNat ∧ (c.regs .rsp).toNat ≤ lo + size
  rdi : lo ≤ (c.regs .rdi).toNat ∧ (c.regs .rdi).toNat + 160 ≤ lo + size
  apart : (c.regs .rdi).toNat + 160 ≤ (c.regs .rsp).toNat - 40 ∨ (c.regs .rsp).toNat ≤ (c.regs .rdi).toNat
  words : c.mmu.Words c.cr3 c.mem (c.regs .rdi) context.words

section
variable {c c1 : Cpu} {lo size base : Nat} {context : Context}

theorem Ready.address (ready : Ready c lo size context) (window : c.mmu.Window c.cr3 lo size base) {i : Nat}
    (small : i < 20) : (c.regs .rdi + offset i).toNat = (c.regs .rdi).toNat + 8 * i := by
  have limit := window.bound
  have upper := ready.rdi.2
  unfold offset
  rw [UInt64.toNat_add, UInt64.toNat_ofNat']
  omega

theorem Ready.holds (ready : Ready c lo size context) (window : c.mmu.Window c.cr3 lo size base) :
    ∀ i v, context.words[i]? = some v → c.mem.load (base + ((c.regs .rdi).toNat + 8 * i - lo)) 8 = v.toNat := by
  obtain ⟨below, above⟩ := ready.rdi
  exact (window.words_iff below (show _ + 8 * context.words.length ≤ _ from above)).mp ready.words

theorem Ready.sources (ready : Ready c lo size context) (window : c.mmu.Window c.cr3 lo size base) :
    ∀ e ∈ pushedWords context, c.Source lo size base 5 (c.regs .rdi + e.1) e.2 := by
  intro e member
  obtain ⟨i, listed, rfl⟩ := List.mem_map.mp member
  have small : i < 20 := (by decide : ∀ i ∈ pushedFields, i < 20) i listed
  have address := ready.address window small
  obtain ⟨below, above⟩ := ready.rdi
  have apart := ready.apart
  dsimp only
  refine ⟨by omega, by omega, by omega, ?_⟩
  rw [address]
  refine ready.holds window i _ ?_
  rw [List.getD_eq_getElem?_getD, List.getElem?_eq_getElem (show i < context.words.length from small)]
  rfl

/-- After the pushes the context can still be read on tables that have the window
at the same place. -/
theorem Ready.word (ready : Ready c lo size context) (window : c.mmu.Window c.cr3 lo size base)
    (pushed : Cpu.Pushed lo base ((pushedWords context).map Prod.snd) c c1) {cr3 : UInt64}
    (window' : c.mmu.Window cr3 lo size base) (r : Reg) :
    Cpu.word { c1 with cr3 := cr3 } (c.regs .rdi + offReg r) = some (context.reg r) := by
  have small : field r < 20 := by cases r <;> decide
  have address := ready.address window small
  obtain ⟨below, above⟩ := ready.rdi
  have apart := ready.apart
  unfold offReg
  refine Cpu.word_window (pushed.mmu.symm ▸ window') (by omega) (by omega) ?_
  rw [address, ← ready.holds window (field r) _ (words_field context r)]
  refine Mem.load_congr fun x lower upper => pushed.others x ?_
  change ¬(base + ((c.regs .rsp).toNat - 40 - lo) ≤ x ∧ _)
  omega

/-- If the tables in RAX have the window at the same place, the block leads to the
state that the context describes. -/
theorem Ready.loads (ready : Ready c lo size context) (window : c.mmu.Window c.cr3 lo size base)
    (window' : c.mmu.Window (c.regs .rax) lo size base) :
    ∃ c' final, runOps loadContext c = some c' ∧ c'.iretq = some (final, context.frame) ∧
      (∀ r, final.regs r = context.reg r) ∧ final.cr3 = c.regs .rax := by
  obtain ⟨lower, upper⟩ := ready.rsp
  obtain ⟨c1, run1, pushed⟩ :=
    @Cpu.pushWords c lo size base .rdi (pushedWords context) window (by decide) lower upper (ready.sources window)
  obtain ⟨rsp, regs, _⟩ := pushed.regs
  have table : c1.regs .rax = c.regs .rax := by rw [regs, Function.update_of_ne (by decide)]
  have pointer : c1.regs .rdi = c.regs .rdi := by rw [regs, Function.update_of_ne (by decide)]
  have word (r : Reg) := ready.word window pushed window' r
  rw [← pointer] at word
  have run2 : runOps [.plain (.writeCr3 .rax), .mfence] c1 = some { c1 with cr3 := c.regs .rax } := by
    rw [← table]
    rfl
  have run3 := @runOps_loads { c1 with cr3 := c.regs .rax } .rdi loadedRegs offReg context.reg (by decide)
    fun r _ => word r
  obtain ⟨c3, loaded⟩ : ∃ c3 : Cpu, c3 = { c1 with
      regs := fun r => if r ∈ loadedRegs then context.reg r else c1.regs r
      cr3 := c.regs .rax } := ⟨_, rfl⟩
  have run4 : runOps [.load .rdi .rdi (offReg .rdi)] c3 = some (c3.set .rdi (context.reg .rdi)) := by
    have last : c3.word (c3.regs .rdi + offReg .rdi) = some (context.reg .rdi) := by
      rw [loaded]
      exact word .rdi
    rw [runOps, Op.run, last]
    rfl
  have window3 : c3.mmu.Window c3.cr3 lo size base := by
    rw [loaded]
    exact pushed.mmu.symm ▸ window'
  have back : (c3.set .rdi (context.reg .rdi)).iretq =
      some ((c3.set .rdi (context.reg .rdi)).set .rsp (context.reg .rsp), context.frame) :=
    @Cpu.Pushed.iretq c lo size base c1 (c3.set .rdi (context.reg .rdi)) _ _ _ _ _ pushed lower upper window3
      (by rw [loaded]; rfl) (by rw [loaded]; rfl)
  refine ⟨_, _, ?_, back, fun r => ?_, ?_⟩
  · rw [loadContext_blocks context, runOps_append, run1, Option.bind_some, runOps_append, run2, Option.bind_some,
      runOps_append, run3, Option.bind_some, ← loaded, run4]
  · rw [loaded]
    cases r <;> rfl
  · rw [loaded]
    rfl

end

end ContextSwitch

/-- The window with the interrupt stacks. -/
def gsBase : Nat := 0xffff800040000000

section
variable {m : Mem} {root s : Nat} {cr3 : UInt64}

/-- Whoever links one of the two upper halves has the interrupt stacks at the same
place. -/
theorem Whole.gs_window (whole : Whole m) (shared : Shared s) (table : cr3.toNat / 4096 = root)
    (link : m.entry root 256 = pte s (present ||| writable)) : (tablesMmu m).Window cr3 gsBase 0x200000 0x1800000 := by
  refine ⟨fun a lower upper => ?_, by decide⟩
  unfold gsBase at lower upper ⊢
  have path : pagePath (a.toNat / 4096) = [256, 1, 0, Fin.ofNat 512 (a.toNat / 4096)] := by
    simp only [pagePath, List.cons.injEq, and_true, Fin.ext_iff, Fin.val_ofNat]
    change _ = 256 ∧ _ = 1 ∧ _ = 0
    omega
  have second : m.entry s 1 = pte pdtGs flags := by
    rw [whole s 1 shared.upper]
    rcases shared with rfl | rfl <;> rfl
  have third : m.entry pdtGs 0 = pte (12 * 0x200) gsFlags := whole pdtGs 0 (Or.inr (Or.inr (by decide)))
  rw [tablesMmu_phys, table, hwTranslate, path, hwWalk_link link shared.lt (by decide) (by decide),
    hwWalk_link second (by decide) (by decide) (by decide), hwWalk_huge third (by decide) (by decide)]
  refine congrArg some ((physAddr_hugePte (by decide) (by decide)).trans ?_)
  omega

end

namespace Kernel
open ContextSwitch

variable {k : Kernel} {spaces : Set (ProcType × Nat)}

/-- A table that a context can come with: that of the kernel, if it was interrupted
in a system call, or that of a process. -/
def Loadable (spaces : Set (ProcType × Nat)) (table : Nat) : Prop :=
  table = kernelPml4 ∨ ∃ space ∈ spaces, table = space.2 * 4096

/-- The end of `switch_task`. In every state that the machine can reach, whatever
context and table the scheduler has chosen, the processor reaches its `iretq`,
although it changes the tables on the way, and goes on with exactly the registers
of this context on these tables. -/
theorem switch_task_resumes (mapper : PageMapper) (parse : List UInt8 → Option Image) {map : MemoryMap} {start : Kernel}
    {allowed : Kernel → MachineEvent → Prop} {c : Cpu} {context : Context} (booted : Booted map start)
    (top : start.mem.entry Paging.pml4 256 = pte pdptHigh Paging.flags)
    (run : MachineRun mapper parse allowed start ∅ k spaces) (mmu : c.mmu = tablesMmu k.mem) (kernel : c.cr3 = 0x100000)
    (loadable : Loadable spaces (c.regs .rax).toNat) (ready : Ready c gsBase 0x200000 context) :
    ∃ c' final, runOps loadContext c = some c' ∧ c'.iretq = some (final, context.frame) ∧
      (∀ r, final.regs r = context.reg r) ∧ final.cr3 = c.regs .rax := by
  obtain ⟨R, sealed, anchored, _, kept⟩ := run.anchored booted
  have own {cr3 : UInt64} (table : cr3.toNat = kernelPml4) : c.mmu.Window cr3 gsBase 0x200000 0x1800000 := by
    rw [mmu]
    refine anchored.whole.gs_window (Or.inl rfl) ?_ ((kept Paging.pml4 256 (by decide)).trans top)
    rw [table]
    decide
  refine ready.loads (own (kernel ▸ rfl)) ?_
  rcases loadable with interrupted | ⟨⟨typ, root⟩, there, process⟩
  · exact own interrupted
  · rw [mmu]
    obtain ⟨member, half⟩ := sealed.known _ there
    obtain ⟨typ', linked⟩ := anchored.linked root member
    have link := half.linked linked 256 (Nat.le_refl 256)
    refine anchored.whole.gs_window (upperTable_shared typ) ?_ link
    rw [process, Nat.mul_div_cancel root (by decide)]

/-- A memory that is zero but for the words of a new process at this address. -/
def contextMem (addr : Nat) : Mem := fun x =>
  UInt8.ofNat (((Context.initial .normal).words.getD ((x - addr) / 8) 0).toNat / 256 ^ ((x - addr) % 8))

/-- The processor on the interrupt stack, with the context of a new process above it. -/
def interruptCpu (m : Mem) : Cpu where
  regs r := if r = .rsp then 0xffff8000400fe000 else if r = .rdi then 0xffff8000400fe800 else 0x1e02000
  cr3 := 0x100000
  mem := contextMem 0x18fe800
  mmu := tablesMmu m

theorem interruptCpu_ready {m : Mem} (whole : Whole m) (link : m.entry Paging.pml4 256 = pte pdptHigh Paging.flags) :
    Ready (interruptCpu m) gsBase 0x200000 (.initial .normal) := by
  have window : (interruptCpu m).mmu.Window (interruptCpu m).cr3 gsBase 0x200000 0x1800000 :=
    whole.gs_window (Or.inl rfl) (by change UInt64.toNat 0x100000 / 4096 = Paging.pml4; decide) link
  have rdi : gsBase ≤ ((interruptCpu m).regs .rdi).toNat ∧ ((interruptCpu m).regs .rdi).toNat + 160 ≤ gsBase + 0x200000 :=
    ⟨by change gsBase ≤ UInt64.toNat 0xffff8000400fe800; decide, by
      change UInt64.toNat 0xffff8000400fe800 + 160 ≤ gsBase + 0x200000; decide⟩
  have inside : ((interruptCpu m).regs .rdi).toNat + 8 * (Context.initial .normal).words.length ≤ gsBase + 0x200000 := rdi.2
  refine ⟨⟨?_, ?_⟩, rdi, Or.inr ?_, (window.words_iff rdi.1 inside).mpr fun i v listed => ?_⟩
  · change gsBase + 40 ≤ UInt64.toNat 0xffff8000400fe000
    decide
  · change UInt64.toNat 0xffff8000400fe000 ≤ gsBase + 0x200000
    decide
  · change UInt64.toNat 0xffff8000400fe000 ≤ UInt64.toNat 0xffff8000400fe800
    decide
  · obtain ⟨small, rfl⟩ := List.getElem?_eq_some_iff.mp listed
    exact (by decide +kernel : ∀ i : Fin (Context.initial .normal).words.length,
      (contextMem 0x18fe800).load (0x1800000 + (UInt64.toNat 0xffff8000400fe800 + 8 * i - gsBase)) 8 =
        ((Context.initial .normal).words.get i).toNat) ⟨i, small⟩

theorem pagedKernel_top : pagedKernel.mem.entry Paging.pml4 256 = pte pdptHigh Paging.flags := by
  unfold pagedKernel
  dsimp only
  rw [init_lower_entry _ _ (Or.inr (Or.inr (Or.inr ⟨rfl, Or.inr rfl⟩)))]
  rfl

/-- The first process of the small machine starts. -/
theorem switch_task_resumes_first_process :
    ∃ k spaces c' final, MachineRun FourLevel.mapper flatParse (fun _ _ => True) pagedKernel ∅ k spaces ∧
      runOps loadContext (interruptCpu k.mem) = some c' ∧ c'.iretq = some (final, (Context.initial .normal).frame) ∧
      final.cr3 = 0x1e02000 := by
  have run : ((pagedKernel.step FourLevel.mapper flatParse (.create [0x90] 0)).map fun k =>
      (k.sched.slot .normal 0).tableAddr) = some (0x1e02 * 4096) := by
    decide +kernel
  obtain ⟨k, first, table⟩ := Option.map_eq_some_iff.mp run
  have created : pagedKernel.machineStep FourLevel.mapper flatParse (.kernel (.create [0x90] 0)) = some k := first
  have reach : MachineRun FourLevel.mapper flatParse (fun _ _ => True) pagedKernel ∅ k (∅ ∪ k.spaces) :=
    MachineRun.refl.next (by exact trivial) trivial created
  have there : (ProcType.normal, 0x1e02) ∈ ∅ ∪ k.spaces := Or.inr ⟨0, table, by decide⟩
  obtain ⟨R, _, anchored, _, kept⟩ := reach.anchored pagedKernel_booted
  have ready := interruptCpu_ready anchored.whole ((kept Paging.pml4 256 (by decide)).trans pagedKernel_top)
  have own : ((interruptCpu k.mem).regs .rax).toNat = 0x1e02 * 4096 := (by decide : UInt64.toNat 0x1e02000 = 0x1e02 * 4096)
  have loadable : Loadable (∅ ∪ k.spaces) ((interruptCpu k.mem).regs .rax).toNat := Or.inr ⟨_, there, own⟩
  have mmu : (interruptCpu k.mem).mmu = tablesMmu k.mem := rfl
  have kernel : (interruptCpu k.mem).cr3 = 0x100000 := rfl
  obtain ⟨c', final, loaded, back, _, cr3⟩ := switch_task_resumes FourLevel.mapper flatParse pagedKernel_booted
    pagedKernel_top reach mmu kernel loadable ready
  exact ⟨k, _, c', final, reach, loaded, back, cr3⟩

end Kernel

end ProkaKernel
