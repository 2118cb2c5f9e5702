import ProkaKernel.DriverMemory
import ProkaKernel.KernelMap
import ProkaKernel.X86

namespace ProkaKernel
open X86

/-- The code of `syscall_entry`; the call is that of `syscall_handler`. -/
def syscallEntry : List Instr := [
  .push .rbp,
  .mov .rbp .rsp,
  .push .rbx,
  .push .rcx,
  .push .rdx,
  .push .rsp,
  .push .rbp,
  .push .rsi,
  .push .rdi,
  .push .r8,
  .push .r9,
  .push .r10,
  .push .r11,
  .push .r12,
  .push .r13,
  .push .r14,
  .push .r15,
  .mov .r14 .rsp,
  .readCr3 .r15,
  .movImm .r13 0x100000,
  .writeCr3 .r13,
  .movImm .rsp 0xffff80004007f000,
  .push .r14,
  .push .r15,
  .mov .rcx .r8,
  .mov .r8 .r9,
  .call,
  .pop .r15,
  .pop .r14,
  .mov .rsp .r14,
  .writeCr3 .r15,
  .pop .r15,
  .pop .r14,
  .pop .r13,
  .pop .r12,
  .pop .r11,
  .pop .r10,
  .pop .r9,
  .pop .r8,
  .pop .rdi,
  .pop .rsi,
  .pop .rbp,
  .pop .rsp,
  .pop .rdx,
  .pop .rcx,
  .pop .rbx,
  .pop .rbp,
  .sysretq]

namespace SyscallEntry

/-- The block that saves the registers on the stack of the user. -/
def save : List Instr := syscallEntry.take 17

/-- The registers that are recovered, in their order. -/
def recovered : List Reg := [.r15, .r14, .r13, .r12, .r11, .r10, .r9, .r8, .rdi, .rsi, .rbp, .rsp, .rdx, .rcx, .rbx, .rbp]

/-- The words that the entry saves on the stack of the user, from the last one on. -/
def saved (regs : Reg → UInt64) : List UInt64 :=
  [regs .r15, regs .r14, regs .r13, regs .r12, regs .r11, regs .r10, regs .r9, regs .r8, regs .rdi, regs .rsi,
    regs .rsp - 8, regs .rsp - 8 - 8 - 8 - 8, regs .rdx, regs .rcx, regs .rbx, regs .rbp]

/-- The registers after that. -/
def savedRegs (regs : Reg → UInt64) : Reg → UInt64
  | .rsp => regs .rsp - 128
  | .rbp => regs .rsp - 8
  | r => regs r

theorem stacked_save (regs : Reg → UInt64) :
    stackedAll save ⟨regs, []⟩ = some ⟨savedRegs regs, saved regs⟩ := by
  have bottom : regs .rsp - 8 - 8 - 8 - 8 - 8 - 8 - 8 - 8 - 8 - 8 - 8 - 8 - 8 - 8 - 8 - 8 = regs .rsp - 128 := by
    grind
  have same : (stackedAll save ⟨regs, []⟩) = some ⟨_, saved regs⟩ := rfl
  rw [same]
  congr 2
  funext r
  cases r <;> simp [savedRegs, Function.update, bottom]

theorem stacked_recover (regs user : Reg → UInt64) :
    stackedAll (recovered.map .pop) ⟨Function.update regs .rsp (user .rsp - 128), saved user⟩ =
      some ⟨Function.update user .rax (regs .rax), []⟩ := by
  obtain ⟨a, top⟩ : ∃ a, a = user .rsp - 128 := ⟨_, rfl⟩
  have back : user .rsp - 8 - 8 - 8 - 8 = a + 8 + 8 + 8 + 8 + 8 + 8 + 8 + 8 + 8 + 8 + 8 + 8 := by
    grind
  have bottom : a + 8 + 8 + 8 + 8 + 8 + 8 + 8 + 8 + 8 + 8 + 8 + 8 + 8 + 8 + 8 + 8 = user .rsp := by
    grind
  rw [← top, saved, back, recovered]
  simp only [List.map_cons, List.map_nil, stackedAll_pop, stackedAll_pop_rsp, ne_eq, reduceCtorEq, not_false_eq_true, bottom]
  refine congrArg (fun regs => some (Stacked.mk regs [])) (funext fun r => ?_)
  cases r <;> simp only [Function.update_apply, reduceCtorEq, if_false, if_true]

/-- The block that goes over to the kernel's tables and its stack. -/
def enter : List Instr := (syscallEntry.drop 17).take 9

/-- The block that goes back. -/
def leave : List Instr := (syscallEntry.drop 27).take 4

theorem syscallEntry_blocks :
    syscallEntry = save ++ (enter ++ .call :: (leave ++ (recovered.map .pop ++ [.sysretq]))) := rfl

/-- The lowest word of the kernel's stack that the entry itself writes: it pushes
two, and the call a third one. -/
def kernelWords : UInt64 := 0xffff80004007efe8

section
variable {c c' entered returned : Cpu} {next : UInt64} {vs : List UInt64}

/-- The handler is entered on the kernel's tables, with the stack pointer and the
tables of the user on its stack and the arguments in their registers. -/
structure Entered (c entered : Cpu) : Prop where
  arguments : entered.arguments = [c.regs .rdi, c.regs .rsi, c.regs .rdx, c.regs .r8, c.regs .r9]
  rsp : entered.regs .rsp = kernelWords
  mmu : entered.mmu = c.mmu
  frame : entered.mmu.Words entered.cr3 entered.mem (kernelWords + 8) [c.cr3, c.regs .rsp]
  others : ∀ x, (∀ j < 24, c.mmu.phys 0x100000 (kernelWords + UInt64.ofNat j) ≠ some x) → entered.mem x = c.mem x

/-- The processor on the kernel's tables and at the top of its stack. -/
def switched (c : Cpu) : Cpu where
  regs := Function.update (Function.update (Function.update (Function.update c.regs .r14 (c.regs .rsp)) .r15 c.cr3)
    .r13 0x100000) .rsp 0xffff80004007f000
  cr3 := 0x100000
  mem := c.mem
  mmu := c.mmu

/-- The last step before the call, with the arguments for the System V ABI. -/
def shuffled (c : Cpu) : Cpu := (c.set .rcx (c.regs .r8)).set .r8 ((c.set .rcx (c.regs .r8)).regs .r9)

theorem runAll_enter (c : Cpu) : runAll enter c = ((switched c).push (c.regs .rsp)).bind fun c1 =>
    (c1.push (c1.regs .r15)).bind fun c2 => some (shuffled c2) := rfl

theorem enter_call (run : runAll enter c = some c') (call : c'.push next = some entered) : Entered c entered := by
  rw [runAll_enter] at run
  obtain ⟨c1, first, run⟩ := Option.bind_eq_some_iff.mp run
  obtain ⟨c2, second, run⟩ := Option.bind_eq_some_iff.mp run
  cases Option.some.inj run
  obtain ⟨regs1, cr31, mmu1⟩ := Cpu.push_regs first
  obtain ⟨regs2, cr32, mmu2⟩ := Cpu.push_regs second
  obtain ⟨regs3, cr33, mmu3⟩ := Cpu.push_regs call
  have top1 : c1.regs .rsp = kernelWords + 16 := by
    rw [regs1, Function.update_self]
    exact (by decide : (0xffff80004007f000 : UInt64) - 8 = kernelWords + 16)
  have top2 : c2.regs .rsp = kernelWords + 8 := by
    rw [regs2, Function.update_self, top1]
    decide
  have top3 : entered.regs .rsp = kernelWords := by
    rw [regs3, Function.update_self]
    change c2.regs .rsp - 8 = kernelWords
    rw [top2]
    decide
  have table : c1.regs .r15 = c.cr3 := by
    rw [regs1]
    rfl
  have words1 := @Cpu.push_words _ _ _ [] first trivial (by simp)
  have words2 := Cpu.push_words second words1 (by simp)
  have words3 := Cpu.push_words call words2 (by simp)
  rw [top3, table] at words3
  refine ⟨?_, top3, mmu3.trans (mmu2.trans mmu1), words3.2, fun x apart => ?_⟩
  · simp only [Cpu.arguments, regs3, regs2, regs1, shuffled, switched, Cpu.set, Function.update_apply, reduceCtorEq,
      if_false, if_true]
  · have word {c' : Cpu} (i : Nat) (low : i < 3) (cr3 : c'.cr3 = 0x100000) (mmu : c'.mmu = c.mmu)
        (top : c'.regs .rsp = kernelWords + UInt64.ofNat (8 * i)) :
        ∀ k < 8, c'.mmu.phys c'.cr3 (c'.regs .rsp + UInt64.ofNat k) ≠ some x := by
      intro k bound
      rw [mmu, cr3, top, UInt64.add_assoc, ← UInt64.ofNat_add]
      exact apart (8 * i + k) (by omega)
    have kept1 := Cpu.push_of_ne first (word 2 (by decide) cr31 mmu1 top1)
    have kept2 := Cpu.push_of_ne second (word 1 (by decide) (cr32.trans cr31) (mmu2.trans mmu1) top2)
    have kept3 := Cpu.push_of_ne call (word 0 (by decide) (cr33.trans (cr32.trans cr31)) (mmu3.trans (mmu2.trans mmu1))
      (top3.trans (UInt64.add_zero _).symm))
    exact kept3.trans (kept2.trans kept1)

/-- The way back to the stack and the tables of the user. -/
theorem leave_run {cr3 rsp : UInt64} (top : returned.regs .rsp = kernelWords + 8)
    (frame : returned.mmu.Words returned.cr3 returned.mem (kernelWords + 8) [cr3, rsp]) :
    ∃ regs, runAll leave returned = some { returned with regs := Function.update regs .rsp rsp, cr3 := cr3 } := by
  obtain ⟨first, second, _⟩ := frame
  rw [← top] at first second
  have pop1 := Cpu.pop_word first .r15
  have pop2 := @Cpu.pop_word ((returned.set .rsp (returned.regs .rsp + 8)).set .r15 cr3) rsp second .r14
  have run : runAll leave returned =
      (returned.pop .r15).bind fun c1 => (c1.pop .r14).bind (runAll [.mov .rsp .r14, .writeCr3 .r15]) := rfl
  rw [run, pop1, Option.bind_some, pop2, Option.bind_some]
  exact ⟨_, rfl⟩

end

/-- A stack of the user: its words, which the entry saves, are not those that it
writes on the kernel's stack. -/
def UserStack (c : Cpu) : Prop :=
  ∀ i < 128, ∀ j < 24, ∀ p, c.mmu.phys c.cr3 (c.regs .rsp - 128 + UInt64.ofNat i) = some p →
    c.mmu.phys 0x100000 (kernelWords + UInt64.ofNat j) ≠ some p

/-- The words that the entry saved for `user` are not modified. -/
def KeepsSaved (user c c' : Cpu) : Prop :=
  ∀ vs : List UInt64, vs.length = 16 → c.mmu.Words user.cr3 c.mem (user.regs .rsp - 128) vs →
    c'.mmu.Words user.cr3 c'.mem (user.regs .rsp - 128) vs

section
variable {handler : Cpu → Cpu → Prop} {next : UInt64} {user entered returned : Cpu} {calls : List Cpu} {final c : Cpu}

/-- The handler is entered with the saved words on the stack of the user. -/
theorem save_enter_call {c1 c2 : Cpu} (stack : UserStack user) (first : runAll save user = some c1)
    (second : runAll enter c1 = some c2) (call : c2.push next = some entered) :
    entered.arguments = [user.regs .rdi, user.regs .rsi, user.regs .rdx, user.regs .r8, user.regs .r9] ∧
    entered.regs .rsp = kernelWords ∧
    entered.mmu.Words entered.cr3 entered.mem (kernelWords + 8) [user.cr3, user.regs .rsp - 128] ∧
    entered.mmu.Words user.cr3 entered.mem (user.regs .rsp - 128) (saved user.regs) := by
  have start : user.Matches ⟨user.regs, []⟩ := ⟨rfl, trivial⟩
  obtain ⟨⟨regs, words⟩, cr3, mmu⟩ := start.all (by simp [save, syscallEntry]) (stacked_save user.regs) first
  have into := enter_call second call
  have top : c1.regs .rsp = user.regs .rsp - 128 := by
    rw [regs]
    rfl
  have arguments := into.arguments
  have frame := into.frame
  rw [top, cr3] at frame
  rw [regs] at arguments
  refine ⟨arguments, into.rsp, frame, ?_⟩
  rw [into.mmu, mmu]
  rw [cr3, mmu] at words
  refine Mmu.Words.congr words fun i bound p found => into.others p fun j below => ?_
  rw [mmu]
  exact stack i bound j below p found

/-- Back on the stack of the user, its words are the saved ones. -/
theorem recover_matches (regs : Reg → UInt64)
    (words : returned.mmu.Words user.cr3 returned.mem (user.regs .rsp - 128) (saved user.regs)) :
    Cpu.Matches { returned with regs := Function.update regs .rsp (user.regs .rsp - 128), cr3 := user.cr3 }
      ⟨Function.update regs .rsp (user.regs .rsp - 128), saved user.regs⟩ := by
  refine ⟨rfl, ?_⟩
  dsimp only
  rw [Function.update_self]
  exact words

/-- The way back from the handler, with the saved words as they were. -/
theorem leave_recover {c3 c4 : Cpu} (top : returned.regs .rsp = kernelWords + 8)
    (frame : returned.mmu.Words returned.cr3 returned.mem (kernelWords + 8) [user.cr3, user.regs .rsp - 128])
    (words : returned.mmu.Words user.cr3 returned.mem (user.regs .rsp - 128) (saved user.regs))
    (third : runAll leave returned = some c3) (fourth : runAll (recovered.map .pop) c3 = some c4) :
    (∀ r, r ≠ .rax → c4.regs r = user.regs r) ∧ c4.cr3 = user.cr3 := by
  obtain ⟨regs, run⟩ := leave_run top frame
  cases run.symm.trans third
  obtain ⟨⟨same, _⟩, cr3, _⟩ := (recover_matches regs words).all (by simp [saved, recovered])
    (stacked_recover regs user.regs) fourth
  refine ⟨fun r other => ?_, cr3⟩
  rw [same]
  exact Function.update_of_ne other ..

end

/-- The entry keeps all registers but `rax`, with the stack pointer, and the
tables, and calls the handler with the five arguments of the user in order. -/
theorem syscall_entry_preserves {handler : Cpu → Cpu → Prop} {next : UInt64} {user final : Cpu} {calls : List Cpu}
    (obeys : ∀ c c', handler c c' → SysV 2 c c') (keeps : ∀ c c', handler c c' → KeepsSaved user c c')
    (stack : UserStack user) (exec : Exec handler next syscallEntry user calls final) :
    (∀ r, r ≠ .rax → final.regs r = user.regs r) ∧ final.cr3 = user.cr3 ∧
      calls.map Cpu.arguments = [[user.regs .rdi, user.regs .rsi, user.regs .rdx, user.regs .r8, user.regs .r9]] := by
  rw [syscallEntry_blocks] at exec
  obtain ⟨c1, first, exec⟩ := exec.straight (by decide)
  obtain ⟨c2, second, exec⟩ := exec.straight (by decide)
  cases exec with
  | step run _ => cases run
  | @call _ _ entered returned _ _ call called exec =>
    obtain ⟨arguments, top, frame, words⟩ := save_enter_call stack first second call
    have abi := obeys _ _ called
    have back : returned.regs .rsp = kernelWords + 8 := by rw [abi.rsp, top]
    obtain ⟨c3, third, exec⟩ := exec.straight (by decide)
    obtain ⟨c4, fourth, exec⟩ := exec.straight (by decide)
    cases exec with
    | step run _ => cases run
    | stop =>
      have kept := abi.frame _ rfl (top ▸ frame)
      rw [top] at kept
      obtain ⟨regs, cr3⟩ := leave_recover back kept (keeps _ _ called _ rfl words) third fourth
      exact ⟨regs, cr3, congrArg (fun a => [a]) arguments⟩

section
variable {handler : Cpu → Cpu → Prop} {user : Cpu}

theorem switched_room {c : Cpu} (room : ∀ j < 24, (c.mmu.phys 0x100000 (kernelWords + UInt64.ofNat j)).isSome) :
    (switched c).Room 3 := by
  intro k bound
  have base : (switched c).regs .rsp - UInt64.ofNat (8 * 3) = kernelWords :=
    (by decide : (0xffff80004007f000 : UInt64) - UInt64.ofNat (8 * 3) = kernelWords)
  rw [base]
  exact room k bound

/-- The entry reaches its `sysretq` if both stacks are mapped and the handler
returns. -/
theorem syscall_entry_reaches (next : UInt64) (obeys : ∀ c c', handler c c' → SysV 2 c c')
    (keeps : ∀ c c', handler c c' → KeepsSaved user c c') (stack : UserStack user) (returns : ∀ c, ∃ c', handler c c')
    (room : user.Room 16) (kernelRoom : ∀ j < 24, (user.mmu.phys 0x100000 (kernelWords + UInt64.ofNat j)).isSome) :
    ∃ calls final, Exec handler next syscallEntry user calls final := by
  obtain ⟨c1, first⟩ : ∃ c1, runAll save user = some c1 := Cpu.Room.runs (by decide) room
  have start : user.Matches ⟨user.regs, []⟩ := ⟨rfl, trivial⟩
  obtain ⟨_, _, mmu⟩ := start.all (by simp [save, syscallEntry]) (stacked_save user.regs) first
  obtain ⟨c2, push1, room2⟩ := (switched_room (mmu ▸ kernelRoom)).push (c1.regs .rsp)
  obtain ⟨c3, push2, room3⟩ := room2.push (c2.regs .r15)
  obtain ⟨entered, call, _⟩ := Cpu.Room.push (c := shuffled c3) (n := 0) room3 next
  have second : runAll enter c1 = some (shuffled c3) := by
    rw [runAll_enter, push1, Option.bind_some, push2, Option.bind_some]
  obtain ⟨_, top, frame, words⟩ := save_enter_call stack first second call
  obtain ⟨returned, called⟩ := returns entered
  have abi := obeys _ _ called
  have kept := abi.frame _ rfl (top ▸ frame)
  rw [top] at kept
  obtain ⟨regs, third⟩ := leave_run (by rw [abi.rsp, top]) kept
  have between := recover_matches regs (keeps _ _ called _ rfl words)
  obtain ⟨final, fourth⟩ := between.pops (by simp [saved]) (stacked_recover regs user.regs)
  rw [syscallEntry_blocks]
  have rest : Exec handler next (leave ++ (recovered.map .pop ++ [.sysretq])) returned [] final :=
    .of_straight third (.of_straight fourth .stop)
  exact ⟨_, final, .of_straight first (.of_straight second (.call call called rest))⟩

end

/-- A machine whose tables all translate an address to itself. -/
def flatMmu : Mmu where
  phys _ addr := some addr.toNat
  offset found := by rw [← Option.some.inj found]

/-- A process that makes the call 2 with its stack at 32 GiB. -/
def flatUser : Cpu where
  regs r := if r = .rsp then 0x800000000 else if r = .rax then 2 else 7
  cr3 := 0x1e02000
  mem _ := 0
  mmu := flatMmu

/-- A handler that only returns a zero, and clears the registers that it may. -/
def returnZero (c c' : Cpu) : Prop :=
  c' = { c with regs := fun r => if r ∈ [.rbx, .rbp, .r12, .r13, .r14, .r15] then c.regs r
    else if r = .rsp then c.regs .rsp + 8 else 0 }

theorem syscall_entry_preserves_flat : ∃ calls final, Exec returnZero 0xffff800000001000 syscallEntry flatUser calls final ∧
    (∀ r, r ≠ .rax → final.regs r = flatUser.regs r) ∧ final.cr3 = 0x1e02000 ∧
      calls.map Cpu.arguments = [[7, 7, 7, 7, 7]] := by
  have obeys (c c' : Cpu) (run : returnZero c c') : SysV 2 c c' := by
    cases run
    refine ⟨fun r member => if_pos member, rfl, fun _ _ words => words⟩
  have keeps (c c' : Cpu) (run : returnZero c c') : KeepsSaved flatUser c c' := by
    cases run
    exact fun _ _ words => words
  have stack : UserStack flatUser := by
    intro i small j below p found same
    have first := congrArg UInt64.toNat (UInt64.toNat_inj.mp (Option.some.inj (found.trans same.symm)))
    rw [UInt64.toNat_add, UInt64.toNat_add, UInt64.toNat_ofNat', UInt64.toNat_ofNat'] at first
    change ((0x800000000 - 128) + i % 2 ^ 64) % 2 ^ 64 = (0xffff80004007efe8 + j % 2 ^ 64) % 2 ^ 64 at first
    omega
  obtain ⟨calls, final, exec⟩ := syscall_entry_reaches 0xffff800000001000 obeys keeps stack (fun c => ⟨_, rfl⟩)
    (fun _ _ => rfl) fun _ _ => rfl
  exact ⟨calls, final, exec, syscall_entry_preserves obeys keeps stack exec⟩

end SyscallEntry

open SyscallEntry

/-- The tables in memory, as the processor walks them. -/
def tablesMmu (m : Mem) : Mmu where
  phys cr3 addr := hwTranslate m (cr3.toNat / 4096) addr.toNat
  offset found := by
    obtain ⟨entries, _, rfl⟩ := Option.map_eq_some_iff.mp found
    exact physAddr_offset _ _ _

theorem tablesMmu_phys (m : Mem) (cr3 addr : UInt64) :
    (tablesMmu m).phys cr3 addr = hwTranslate m (cr3.toNat / 4096) addr.toNat := by
  unfold tablesMmu
  dsimp only

theorem kernel_root : (0x100000 : UInt64).toNat / 4096 = Paging.pml4 := by decide

theorem kernelWords_gs {j : Nat} (below : j < 24) : 0xffff800040000000 ≤ (kernelWords + UInt64.ofNat j).toNat ∧
    (kernelWords + UInt64.ofNat j).toNat < 0xffff800040200000 := by
  rw [UInt64.toNat_add, UInt64.toNat_ofNat']
  change _ ≤ (0xffff80004007efe8 + j % 2 ^ 64) % 2 ^ 64 ∧ (0xffff80004007efe8 + j % 2 ^ 64) % 2 ^ 64 < _
  omega

/-- The kernel has its interrupt stack where `paging::init` put it, if anywhere. -/
theorem Paged.gs_phys {m : Mem} {addr q : Nat} (paged : Paged m)
    (top : m.entry Paging.pml4 256 = pte pdptHigh Paging.flags ∨ m.entry Paging.pml4 256 = 0)
    (lower : 0xffff800040000000 ≤ addr) (upper : addr < 0xffff800040200000)
    (found : hwTranslate m Paging.pml4 addr = some q) : q < 0x1a00000 := by
  rw [hwTranslate] at found
  obtain ⟨entries, walk, rfl⟩ := Option.map_eq_some_iff.mp found
  have first : Fin.ofNat 512 (addr / 4096 / 512 ^ 3) = 256 := Fin.ext (by rw [Fin.val_ofNat]; omega)
  have second : Fin.ofNat 512 (addr / 4096 / 512 ^ 2) = 1 := Fin.ext (by rw [Fin.val_ofNat]; omega)
  unfold pagePath at walk
  rw [first, second] at walk
  rcases top with linked | zero
  · rw [hwWalk_link linked (by decide) (by decide) (by decide)] at walk
    obtain ⟨below, inner, rfl⟩ := Option.map_eq_some_iff.mp walk
    rcases paged.global_walk (Or.inl rfl) (by decide) inner with ⟨_, _, rfl⟩ | ⟨two, _⟩ | ⟨two, _⟩
    · have phys : physAddr 4 [pte pdptHigh Paging.flags, pte Paging.pdtGs Paging.flags,
          pte (12 * 0x200) Paging.gsFlags] addr = 12 * 2 ^ 21 + addr % 2 ^ 21 :=
        Paging.physAddr_hugePte (by decide) (by decide)
      exact phys.trans_lt (by omega)
    · exact absurd two (by decide)
    · exact absurd two (by decide)
  · rw [hwWalk_absent zero] at walk
    cases walk

namespace Kernel

/-- Every stack in the lower half of a process is a stack of the user. -/
theorem lower_stack (mapper : PageMapper) (parse : List UInt8 → Option Image) {map : MemoryMap} {start k : Kernel}
    {tables : Set Nat} {typ : ProcType} {i root : Nat} (booted : Booted map start)
    (top : start.mem.entry Paging.pml4 256 = pte pdptHigh Paging.flags)
    (reach : Reach mapper parse start k tables) (space : k.Space typ i root) {user : Cpu}
    (mmu : user.mmu = tablesMmu k.mem) (cr3 : user.cr3.toNat = root * 4096) (above : 128 ≤ (user.regs .rsp).toNat)
    (low : (user.regs .rsp).toNat ≤ 2 ^ 47) : UserStack user := by
  obtain ⟨R, goes, _⟩ := reach.goes mapper parse booted.boot
  have owned := booted.boot.valid.stage.owns
  have single := goes.edits.lowEntries entryRule_single owned fun _ none => none.elim
  have reserved := (goes.edits.reserved owned).trans booted.boot.reserved
  obtain ⟨member, _⟩ := space.root goes.valid.slots
  intro b inside j below p found same
  rw [mmu, tablesMmu_phys] at found same
  rw [kernel_root] at same
  have userFrame : usedPage * 4096 ≤ p := by
    rw [hwTranslate] at found
    obtain ⟨entries, walk, rfl⟩ := Option.map_eq_some_iff.mp found
    rw [cr3, Nat.mul_div_cancel root (by decide)] at walk
    rw [← reserved]
    refine goes.valid.low_phys member single ?_ walk
    have size := (user.regs .rsp).toNat_lt
    rw [Fin.val_ofNat, UInt64.toNat_add, UInt64.toNat_sub, UInt64.toNat_ofNat']
    change ((2 ^ 64 - 128 + (user.regs .rsp).toNat) % 2 ^ 64 + b % 2 ^ 64) % 2 ^ 64 / 4096 / 512 ^ 3 % 512 < 256
    omega
  have kernelFrame : p < 0x1a00000 := by
    have entry : k.mem.entry Paging.pml4 256 = start.mem.entry Paging.pml4 256 ∨ k.mem.entry Paging.pml4 256 = 0 := by
      refine (goes.edits.protected_entry owned (Or.inl ?_)).imp_right And.right
      rw [show (start.snapshot ∅ []).alloc.reserved = usedPage from booted.boot.reserved]
      decide
    rw [top] at entry
    obtain ⟨lower, upper⟩ := kernelWords_gs below
    exact (goes.paged booted).gs_phys entry lower upper same
  unfold usedPage at userFrame
  omega

end Kernel

end ProkaKernel
