import ProkaKernel.SyscallEntry
import ProkaKernel.X86Frames

namespace ProkaKernel
open X86

namespace SyscallEntry

/-- The entry up to the first instruction of the handler. -/
def entry (next : UInt64) (user : Cpu) : Option Cpu :=
  (runAll save user).bind fun c1 => (runAll enter c1).bind fun c2 => c2.push next

/-- The entry behind the call. -/
def returning : List Instr := leave ++ (recovered.map .pop ++ [.sysretq])

/-- The system as the entry sees it: the processes that are inside of a call, and
the last one that entered a call. A process is the processor at its `syscall`. -/
structure Calls where
  mem : Mem
  mmu : Mmu
  inside : List Cpu := []
  last : Option Cpu := none

/-- The two words on the kernel's stack are those that the entry pushed for `user`. -/
def FrameOf (user : Cpu) (mem : Mem) (mmu : Mmu) : Prop :=
  mmu.Words 0x100000 mem (kernelWords + 8) [user.cr3, user.regs .rsp - 128]

/-- The two words that the entry pushes on the kernel's stack stay as they are. -/
def KeepsFrame (mem : Mem) (mmu : Mmu) (mem' : Mem) (mmu' : Mmu) : Prop :=
  ∀ vs : List UInt64, vs.length = 2 → mmu.Words 0x100000 mem (kernelWords + 8) vs →
    mmu'.Words 0x100000 mem' (kernelWords + 8) vs

/-- The way back of a handler from the point where it was interrupted. It takes
its return address off the stack, and does not write to the frame of its caller. -/
structure ComesBack (c c' : Cpu) : Prop where
  rsp : c'.regs .rsp = kernelWords + 8
  cr3 : c'.cr3 = 0x100000
  frame : KeepsFrame c.mem c.mmu c'.mem c'.mmu

section Model
variable (handler : Cpu → Cpu → Prop) (next : UInt64)

/-- What happens between two instructions of calls. `SFMask` only clears the
direction flag, so that the timer interrupts a handler at any point, and other
processes go on and may enter calls of their own. They write what they want, on
their stacks too, but for the frame that the entry has pushed. The entry and the
way back are one step each. -/
inductive CallStep (s : Calls) : Calls → Prop
  | enters {user entered} : UserStack user → user.mem = s.mem → user.mmu = s.mmu → entry next user = some entered →
      CallStep s ⟨entered.mem, entered.mmu, user :: s.inside, some user⟩
  | works {mem mmu} : KeepsFrame s.mem s.mmu mem mmu →
      CallStep s { s with
        mem := mem
        mmu := mmu }
  | returns {before user after c returned final} : s.inside = before ++ user :: after → c.mem = s.mem → c.mmu = s.mmu →
      handler c returned → Exec handler next returning returned [] final →
      CallStep s ⟨final.mem, final.mmu, before ++ after, s.last⟩

/-- Any interleaving of calls. -/
def CallRun : Calls → Calls → Prop := Relation.ReflTransGen (CallStep handler next)

end Model

/-- The frame of the last process that entered is still there. -/
structure Calls.Kept (s : Calls) : Prop where
  entered : ∀ user ∈ s.inside, s.last ≠ none
  frame : ∀ user, s.last = some user → FrameOf user s.mem s.mmu

section
variable {handler : Cpu → Cpu → Prop} {next : UInt64} {s s' : Calls} {user entered c c' returned final : Cpu}

theorem enter_cr3 (run : runAll enter c = some c') (call : c'.push next = some entered) : entered.cr3 = 0x100000 := by
  rw [runAll_enter] at run
  obtain ⟨c1, first, run⟩ := Option.bind_eq_some_iff.mp run
  obtain ⟨c2, second, run⟩ := Option.bind_eq_some_iff.mp run
  cases Option.some.inj run
  exact (Cpu.push_regs call).2.cr3.trans ((Cpu.push_regs second).2.cr3.trans (Cpu.push_regs first).2.cr3)

theorem entry_frame (stack : UserStack user) (run : entry next user = some entered) :
    FrameOf user entered.mem entered.mmu := by
  obtain ⟨c1, first, run⟩ := Option.bind_eq_some_iff.mp run
  obtain ⟨c2, second, call⟩ := Option.bind_eq_some_iff.mp run
  obtain ⟨_, _, frame, _⟩ := save_enter_call stack first second call
  rw [enter_cr3 second call] at frame
  exact frame

theorem entry_words (stack : UserStack user) (run : entry next user = some entered) :
    entered.mmu.Words user.cr3 entered.mem (user.regs .rsp - 128) (saved user.regs) := by
  obtain ⟨c1, first, run⟩ := Option.bind_eq_some_iff.mp run
  obtain ⟨c2, second, call⟩ := Option.bind_eq_some_iff.mp run
  exact (save_enter_call stack first second call).2.2.2

/-- The way back does not write to memory. -/
theorem returning_memory (exec : Exec handler next returning returned [] final) :
    final.mem = returned.mem ∧ final.mmu = returned.mmu := by
  obtain ⟨c1, third, exec⟩ := exec.straight (by decide)
  obtain ⟨c2, fourth, exec⟩ := exec.straight (by decide)
  have left := runAll_memory (by decide) third
  have recovered := runAll_memory (by decide) fourth
  cases exec with
  | step run _ => cases run
  | stop => exact ⟨recovered.1.trans left.1, recovered.2.trans left.2⟩

/-- Whoever comes back, `leave` goes to the tables and the stack of the process
whose words are on the kernel's stack. -/
theorem FrameOf.leaves (frame : FrameOf user returned.mem returned.mmu) (back : ComesBack c returned) :
    ∃ left, runAll leave returned = some left ∧ left.cr3 = user.cr3 ∧ left.regs .rsp = user.regs .rsp - 128 := by
  unfold FrameOf at frame
  rw [← back.cr3] at frame
  obtain ⟨regs, third⟩ := leave_run back.rsp frame
  refine ⟨_, third, rfl, ?_⟩
  dsimp only
  rw [Function.update_self]

/-- If the words that the entry saved on that stack are still there, the process
gets its registers from them. -/
theorem FrameOf.returns (frame : FrameOf user returned.mem returned.mmu) (back : ComesBack c returned)
    (words : returned.mmu.Words user.cr3 returned.mem (user.regs .rsp - 128) (saved user.regs)) :
    ∃ final, Exec handler next returning returned [] final ∧
      (∀ r, r ≠ .rax → final.regs r = user.regs r) ∧ final.cr3 = user.cr3 := by
  unfold FrameOf at frame
  rw [← back.cr3] at frame
  obtain ⟨regs, third⟩ := leave_run back.rsp frame
  obtain ⟨final, fourth⟩ := (recover_matches regs words).pops (by simp [saved]) (stacked_recover regs user.regs)
  exact ⟨final, .of_straight third (.of_straight fourth .stop), leave_recover back.rsp frame words third fourth⟩

theorem Calls.Kept.step (obeys : ∀ c c', handler c c' → ComesBack c c') (kept : s.Kept) (step : CallStep handler next s s') :
    s'.Kept := by
  cases step with
  | enters stack _ _ run =>
    refine ⟨fun _ _ => Option.some_ne_none _, fun user last => ?_⟩
    cases last
    exact entry_frame stack run
  | works keeps => exact ⟨kept.entered, fun user last => keeps _ rfl (kept.frame user last)⟩
  | @returns before user after c returned final inside mem mmu called exec =>
    obtain ⟨sameMem, sameMmu⟩ := returning_memory exec
    refine ⟨fun other member => kept.entered other ?_, fun last entered => ?_⟩
    · rw [inside]
      simp only [List.mem_append, List.mem_cons] at member ⊢
      exact member.imp_right Or.inr
    · have now := kept.frame last entered
      rw [← mem, ← mmu] at now
      show FrameOf last final.mem final.mmu
      rw [sameMem, sameMmu]
      exact (obeys _ _ called).frame _ rfl now

theorem Calls.Kept.run (obeys : ∀ c c', handler c c' → ComesBack c c') (kept : s.Kept) (run : CallRun handler next s s') :
    s'.Kept := by
  induction run with
  | refl => exact kept
  | tail _ step ih => exact ih.step obeys step

end

/-- In any interleaving of system calls whose entries are not interrupted, a call
whose handler comes back goes to the tables and the stack of the last process that
entered one. If the words saved there are untouched, it goes on as that process, with
its registers: a process whose call was overtaken is gone, and the other one is there
twice. -/
theorem call_returns_as_last_entered {handler : Cpu → Cpu → Prop} {next : UInt64} {start s : Calls}
    (obeys : ∀ c c', handler c c' → ComesBack c c') (idle : start.inside = [] ∧ start.last = none)
    (run : CallRun handler next start s) {user : Cpu} (inside : user ∈ s.inside) :
    ∃ last, s.last = some last ∧ ∀ c returned, c.mem = s.mem → c.mmu = s.mmu → handler c returned →
      (∃ left, runAll leave returned = some left ∧ left.cr3 = last.cr3 ∧ left.regs .rsp = last.regs .rsp - 128) ∧
      (returned.mmu.Words last.cr3 returned.mem (last.regs .rsp - 128) (saved last.regs) →
        ∃ final, Exec handler next returning returned [] final ∧
          (∀ r, r ≠ .rax → final.regs r = last.regs r) ∧ final.cr3 = last.cr3) := by
  have begun : start.Kept := by
    refine ⟨fun user member => ?_, fun user last => ?_⟩
    · rw [idle.1] at member
      cases member
    · rw [idle.2] at last
      cases last
  have kept := begun.run obeys run
  obtain ⟨last, entered⟩ := Option.ne_none_iff_exists'.mp (kept.entered user inside)
  refine ⟨last, entered, fun c returned mem mmu called => ?_⟩
  have back := obeys _ _ called
  have now := kept.frame last entered
  rw [← mem, ← mmu] at now
  have frame : FrameOf last returned.mem returned.mmu := back.frame _ rfl now
  exact ⟨frame.leaves back, frame.returns back⟩

/-- The handler is entered if both stacks are mapped. -/
theorem entry_reaches {user : Cpu} (next : UInt64) (room : user.Room 16)
    (kernelRoom : ∀ j < 24, (user.mmu.phys 0x100000 (kernelWords + UInt64.ofNat j)).isSome) :
    ∃ entered, entry next user = some entered ∧ entered.mmu = user.mmu := by
  obtain ⟨c1, first⟩ : ∃ c1, runAll save user = some c1 := Cpu.Room.runs (by decide) room
  have start : user.Matches ⟨user.regs, []⟩ := ⟨rfl, trivial⟩
  obtain ⟨_, _, mmu⟩ := start.all (by simp [save, syscallEntry]) (stacked_save user.regs) first
  obtain ⟨c2, push1, room2⟩ := (switched_room (mmu ▸ kernelRoom)).push (c1.regs .rsp)
  obtain ⟨c3, push2, room3⟩ := room2.push (c2.regs .r15)
  have ready : (shuffled c3).Room 1 := room3
  obtain ⟨entered, call, _⟩ := ready.push next
  have second : runAll enter c1 = some (shuffled c3) := by
    rw [runAll_enter, push1, Option.bind_some, push2, Option.bind_some]
  refine ⟨entered, ?_, (enter_call second call).mmu.trans mmu⟩
  rw [entry, first, Option.bind_some, second, Option.bind_some, call]

/-- A process with its stack at an address below 64 GiB, on tables that translate
all addresses to themselves. -/
def flatProcess (cr3 rsp : UInt64) (mem : Mem) : Cpu where
  regs r := if r = .rsp then rsp else 7
  cr3 := cr3
  mem := mem
  mmu := flatMmu

/-- A handler that was interrupted on its first instruction, and then returns. -/
def returnsAtOnce (c c' : Cpu) : Prop := c.regs .rsp = kernelWords ∧ c.cr3 = 0x100000 ∧ returnZero c c'

theorem flatProcess_stack {cr3 rsp : UInt64} {mem : Mem} (above : 128 ≤ rsp.toNat) (low : rsp.toNat ≤ 0x1000000000) :
    UserStack (flatProcess cr3 rsp mem) := by
  intro i small j below p found same
  have equal := congrArg UInt64.toNat (UInt64.toNat_inj.mp (Option.some.inj (found.trans same.symm)))
  change (rsp - 128 + UInt64.ofNat i).toNat = (kernelWords + UInt64.ofNat j).toNat at equal
  rw [UInt64.toNat_add, UInt64.toNat_add, UInt64.toNat_sub, UInt64.toNat_ofNat', UInt64.toNat_ofNat'] at equal
  change ((2 ^ 64 - 128 + rsp.toNat) % 2 ^ 64 + i % 2 ^ 64) % 2 ^ 64 = (0xffff80004007efe8 + j % 2 ^ 64) % 2 ^ 64 at equal
  omega

/-- The second process enters while the first one is inside: the first one then
comes back on the tables and the stack of the second one. -/
theorem overtaken_call_returns_as_other :
    ∃ s second, CallRun returnsAtOnce 0xffff800000001000 ⟨fun _ => 0, flatMmu, [], none⟩ s ∧
    s.inside = [second, flatProcess 0x1e02000 0x800000000 fun _ => 0] ∧ second.cr3 = 0x1e08000 ∧
    ∀ c returned, c.mem = s.mem → c.mmu = s.mmu → returnsAtOnce c returned →
      ∃ final, Exec returnsAtOnce 0xffff800000001000 returning returned [] final ∧ final.cr3 = 0x1e08000 ∧
        final.regs .rsp = 0x900000000 := by
  obtain ⟨entered, run1, mmu1⟩ := @entry_reaches (flatProcess 0x1e02000 0x800000000 fun _ => 0) 0xffff800000001000
    (fun _ _ => rfl) fun _ _ => rfl
  obtain ⟨entered', run2, _⟩ := @entry_reaches (flatProcess 0x1e08000 0x900000000 entered.mem) 0xffff800000001000
    (fun _ _ => rfl) fun _ _ => rfl
  have step1 : CallStep returnsAtOnce 0xffff800000001000 ⟨fun _ => 0, flatMmu, [], none⟩ _ :=
    .enters (flatProcess_stack (by decide) (by decide)) rfl rfl run1
  have stack2 : UserStack (flatProcess 0x1e08000 0x900000000 entered.mem) := flatProcess_stack (by decide) (by decide)
  have run := (Relation.ReflTransGen.single step1).tail (.enters stack2 rfl mmu1.symm run2)
  have obeys (c c' : Cpu) (called : returnsAtOnce c c') : ComesBack c c' := by
    obtain ⟨top, cr3, rfl⟩ := called
    exact ⟨by rw [← top]; rfl, cr3, fun _ _ words => words⟩
  refine ⟨_, _, run, rfl, rfl, fun c returned mem mmu called => ?_⟩
  obtain ⟨last, same, comes⟩ := call_returns_as_last_entered obeys ⟨rfl, rfl⟩ run (List.mem_cons_self ..)
  cases same
  obtain ⟨final, exec, regs, cr3⟩ := (comes c returned mem mmu called).2 (by
    obtain ⟨_, _, rfl⟩ := called
    dsimp only at mem mmu ⊢
    rw [mem, mmu]
    exact entry_words stack2 run2)
  exact ⟨final, exec, cr3, regs .rsp (by decide)⟩

end SyscallEntry

end ProkaKernel
