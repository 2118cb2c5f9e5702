import ProkaKernel.InterruptLocks
import ProkaKernel.Scheduler

namespace ProkaKernel
open Irq

/-- The locks of the kernel: `SYSCALL`, the two run queues, `NORMAL_PROCESS` and
`DRIVER_PROCESS`, `FRAME_ALLOCATOR`, the slot of the processor in `LAPIC_PER_CPU`,
`DRVTYPE_INDEX`, `PCILIST`, the console and `SERIAL1`. -/
inductive Lock
  | syscalls
  | queue (typ : ProcType)
  | table (typ : ProcType)
  | frames
  | lapic
  | driverTypes
  | pciList
  | console
  | serial
  deriving DecidableEq

namespace Lock

def reads (l : Lock) : Guard Lock := ⟨l, false⟩
def writes (l : Lock) : Guard Lock := ⟨l, true⟩

/-- Locks that are taken and given back one after the other. -/
def short (ls : List Lock) : List (Action Lock) := ls.flatMap fun l => guarded l.writes []

/-- Calls of the frame allocator, those of the kernel's heap among them. -/
def allocations (n : Nat) : List (Action Lock) := short (List.replicate n frames)

/-- `syscall_handler` holds its guard of `SYSCALL` during the call. -/
def syscall (body : List (Action Lock)) : List (Action Lock) := guarded syscalls.reads body

/-- `allocate` and `deallocate` from their guard of `NORMAL_PROCESS` on. -/
def memory (n : Nat) : List (Action Lock) := syscall (masking (guarded (table .normal).writes (allocations n)))

/-- `driver_type_reg`, for a type that is valid. -/
def driverTypeReg (a b c : Nat) : List (Action Lock) :=
  guarded driverTypes.writes (allocations a) ++ (guarded (table .driver).reads [] ++
    (guarded pciList.reads (allocations b) ++ allocations c))

/-- The calls that only take locks with interrupts off. -/
inductive Masked : List (Action Lock) → Prop
  | unknown : Masked (syscall [])
  | memoryEmpty : Masked (syscall (masking []))
  | memory (n : Nat) : Masked (memory n)
  | copyFails (n : Nat) : Masked (syscall (masking (allocations n)))
  | powerUnknown : Masked [.take syscalls.reads, .cli, .give syscalls.reads, .sti]
  | coredrvUnknown : Masked (masking (guarded (table .driver).reads []))
  | coredrv (a b c : Nat) : Masked (masking (guarded (table .driver).reads (driverTypeReg a b c)))

/-- `create_normal` and `create_driver` after the process is made: the table, a line
of the log, and the queue, which may grow. -/
def enlist (typ : ProcType) (log : List Lock) (n : Nat) : List (Action Lock) :=
  guarded (table typ).writes (short log ++ guarded (queue typ).writes (allocations n))

/-- `remove_normal` and `remove_driver`, for a process that is there. -/
def takeOff (typ : ProcType) : List (Action Lock) :=
  guarded (table typ).writes (short [frames] ++ guarded (queue typ).writes [])

/-- The process syscall: it copies its buffer with interrupts off, and drops it at
the end. -/
def process (n : Nat) (body : List (Action Lock)) (m : Nat) : List (Action Lock) :=
  syscall (masking (allocations n) ++ (body ++ allocations m))

/-- The calls of the process syscall that come to a process table. -/
inductive Changes (typ : ProcType) : List (Action Lock) → Prop
  | creates {n m k : Nat} {work log : List Lock} : (∀ l ∈ work ++ log, l = frames ∨ l = console ∨ l = serial) →
      Changes typ (process n (short work ++ enlist typ log m) k)
  | absent {n k : Nat} : Changes typ (process n (guarded (table typ).writes []) k)
  | removes {n k : Nat} : Changes typ (process n (takeOff typ) k)

/-- The class that `switch_task` switches to. -/
def nextClass (s : Sched) : ProcType := if s.isDriver then .driver else .normal

/-- `switch_task` behind its looks at the two queues. -/
def switchLocks (next : ProcType) (idle nextEmpty : Bool) : List (Action Lock) :=
  if idle then []
  else guarded (table next.other).writes [] ++
    if nextEmpty then [] else guarded (table next).reads (guarded (queue next).writes [])

/-- The locks of `switch_task` up to its `iretq`. -/
def tickBody (s : Sched) : List (Action Lock) :=
  short [lapic, queue .normal, queue .driver] ++
    switchLocks (nextClass s) (s.normalQueue.isEmpty && s.driverQueue.isEmpty) (s.queue (nextClass s)).isEmpty

def tick (s : Sched) : List (Action Lock) := tickBody s ++ [.sti]

/-- The timer interrupt, in any state of the scheduler. -/
def Ticks : Set (List (Action Lock)) := Set.range tick

/-- Guards are held with interrupts off, but for those of `SYSCALL`, which after the
start of the kernel is only read. -/
def rule (g : Guard Lock) (masked : Bool) : Bool := if g.lock = syscalls then !g.exclusive else masked

theorem rule_peaceful : Peaceful rule := by
  intro g masked g' allowed quiet conflict
  unfold rule at allowed quiet
  by_cases reads : g'.lock = syscalls
  · rw [if_pos reads, Bool.not_eq_true'] at quiet
    rw [if_pos (conflict.1.trans reads), Bool.not_eq_true'] at allowed
    rcases conflict.2 with writes | writes
    · exact absurd (allowed.symm.trans writes) Bool.false_ne_true
    · exact absurd (quiet.symm.trans writes) Bool.false_ne_true
  · rw [if_neg reads] at quiet
    cases quiet

section
variable {may : Guard Lock → Bool → Bool} {gs : List (Guard Lock)} {masked : Bool}

theorem nested_short {ls : List Lock} (allowed : ∀ l ∈ ls, may l.writes masked = true)
    (free : ∀ l ∈ ls, ∀ g ∈ gs, g.lock ≠ l) : Nested may gs masked (short ls) := by
  induction ls with
  | nil => exact nested_nil
  | cons l ls ih =>
    have one : Nested may gs masked (guarded l.writes []) := nested_nil.guarded (allowed l (List.mem_cons_self ..))
      fun g member conflict => free l (List.mem_cons_self ..) g member conflict.1.symm
    exact one.append (ih (fun l' member => allowed l' (List.mem_cons_of_mem _ member))
      fun l' member => free l' (List.mem_cons_of_mem _ member))

theorem nested_allocations (n : Nat) (allowed : may frames.writes masked = true) (free : ∀ g ∈ gs, g.lock ≠ frames) :
    Nested may gs masked (allocations n) := by
  refine nested_short (fun l member => ?_) fun l member => ?_
  · rw [List.eq_of_mem_replicate member]
    exact allowed
  · rw [List.eq_of_mem_replicate member]
    exact free

end

theorem nested_driverTypeReg (a b c : Nat) : Nested rule [(table .driver).reads] true (driverTypeReg a b c) := by
  have types : Nested rule [(table .driver).reads] true (guarded driverTypes.writes (allocations a)) :=
    (nested_allocations a rfl (by decide)).guarded rfl (by decide)
  have own : Nested rule [(table .driver).reads] true (guarded (table .driver).reads []) :=
    nested_nil.guarded rfl (by decide)
  have devices : Nested rule [(table .driver).reads] true (guarded pciList.reads (allocations b)) :=
    (nested_allocations b rfl (by decide)).guarded rfl (by decide)
  exact types.append (own.append (devices.append (nested_allocations c rfl (by decide))))

/-- A system call whose body runs with interrupts off. -/
theorem syscall_obeys {body : List (Action Lock)} (inner : Nested rule [syscalls.reads] true body) :
    obeys rule (syscall (masking body)) [] false = true :=
  ((inner.masking (by decide)).guarded rfl (by decide)).whole

theorem coredrv_obeys {body : List (Action Lock)} (inner : Nested rule [(table .driver).reads] true body) :
    obeys rule (masking (guarded (table .driver).reads body)) [] false = true :=
  (((inner.guarded rfl (by decide)).masking (by decide)) : Nested rule [] false _).whole

theorem masked_obeys {program : List (Action Lock)} (call : Masked program) : obeys rule program [] false = true := by
  cases call with
  | unknown => decide
  | memoryEmpty => exact syscall_obeys nested_nil
  | memory n => exact syscall_obeys ((nested_allocations n rfl (by decide)).guarded rfl (by decide))
  | copyFails n => exact syscall_obeys (nested_allocations n rfl (by decide))
  | powerUnknown => decide
  | coredrvUnknown => exact coredrv_obeys nested_nil
  | coredrv a b c => exact coredrv_obeys (nested_driverTypeReg a b c)

theorem tick_obeys (s : Sched) : obeys rule (tick s) [] true = true := by
  unfold tick tickBody
  generalize nextClass s = next
  generalize (s.normalQueue.isEmpty && s.driverQueue.isEmpty) = idle
  generalize (s.queue next).isEmpty = nextEmpty
  cases next <;> cases idle <;> cases nextEmpty <;> decide

theorem tick_off (s : Sched) : .sti ∉ tickBody s := by
  unfold tickBody
  generalize nextClass s = next
  generalize (s.normalQueue.isEmpty && s.driverQueue.isEmpty) = idle
  generalize (s.queue next).isEmpty = nextEmpty
  cases next <;> cases idle <;> cases nextEmpty <;> simp [short, switchLocks, guarded]

theorem mem_switchLocks {next : ProcType} {idle nextEmpty : Bool} {g : Guard Lock} :
    .take g ∈ switchLocks next idle nextEmpty ↔ idle = false ∧ (g = (table next.other).writes ∨
      nextEmpty = false ∧ (g = (table next).reads ∨ g = (queue next).writes)) := by
  cases idle <;> cases nextEmpty <;> simp [switchLocks, guarded]

theorem busy {q : Sched} {typ : ProcType} (work : q.queue typ ≠ []) : q.normalQueue ≠ [] ∨ q.driverQueue ≠ [] := by
  cases typ with
  | normal => exact Or.inl work
  | driver => exact Or.inr work

/-- The guards that `switch_task` takes. -/
theorem mem_tickBody {s : Sched} {g : Guard Lock} : .take g ∈ tickBody s ↔
    (g = lapic.writes ∨ ∃ typ, g = (queue typ).writes) ∨
    ((s.normalQueue ≠ [] ∨ s.driverQueue ≠ []) ∧ g = (table (nextClass s).other).writes) ∨
    (s.queue (nextClass s) ≠ [] ∧ g = (table (nextClass s)).reads) := by
  have looks : .take g ∈ short [lapic, queue .normal, queue .driver] ↔ g = lapic.writes ∨ ∃ typ, g = (queue typ).writes := by
    simp only [short, guarded, List.flatMap_cons, List.flatMap_nil, List.nil_append, List.cons_append, List.mem_cons,
      Action.take.injEq, reduceCtorEq, false_or, List.not_mem_nil, or_false]
    refine or_congr_right ⟨fun here => here.elim (fun here => ⟨_, here⟩) fun here => ⟨_, here⟩, ?_⟩
    rintro ⟨typ, here⟩
    cases typ
    · exact Or.inl here
    · exact Or.inr here
  have queues : (s.normalQueue.isEmpty && s.driverQueue.isEmpty) = false ↔ s.normalQueue ≠ [] ∨ s.driverQueue ≠ [] := by
    rw [Bool.and_eq_false_iff, List.isEmpty_eq_false_iff, List.isEmpty_eq_false_iff]
  unfold tickBody
  rw [List.mem_append, looks, mem_switchLocks, queues, List.isEmpty_eq_false_iff]
  constructor
  · rintro (early | ⟨work, saves | ⟨more, loads | again⟩⟩)
    · exact Or.inl early
    · exact Or.inr (Or.inl ⟨work, saves⟩)
    · exact Or.inr (Or.inr ⟨more, loads⟩)
    · exact Or.inl (Or.inr ⟨_, again⟩)
  · rintro (early | ⟨work, saves⟩ | ⟨more, loads⟩)
    · exact Or.inl early
    · exact Or.inr ⟨work, Or.inl saves⟩
    · exact Or.inr ⟨busy more, Or.inr ⟨more, Or.inl loads⟩⟩

section Machine
variable {T : Type}

/-- No thread is in a call, and no handler runs. -/
def Idle (s : Machine T Lock) : Prop := s.handler = none ∧ ∀ t, s.threads t = ⟨[], [], false⟩

theorem Idle.safe {may : Guard Lock → Bool → Bool} {s : Machine T Lock} (idle : Idle s) : s.Safe may := by
  refine ⟨fun t => ?_, fun t _ => ?_, fun h handling => ?_⟩
  · rw [idle.2 t]
    exact ⟨rfl, fun _ _ none => (List.not_mem_nil none).elim⟩
  · rw [idle.2 t]
  · rw [idle.1] at handling
    cases handling

theorem safe_run [DecidableEq T] {start s : Machine T Lock} (idle : Idle start)
    (run : start.Run {program | Masked program} Ticks s) : s.Safe rule := by
  refine idle.safe.run (fun program call => masked_obeys call) (fun program member => ?_) run
  obtain ⟨q, rfl⟩ := member
  exact tick_obeys q

/-- A timer interrupt never ends exactly if it needs a guard that conflicts with one
that is out. -/
theorem hangs_iff [DecidableEq T] {calls : Set (List (Action Lock))} {s : Machine T Lock} {q : Sched} :
    (∀ s', (s.interrupted (tick q)).Run calls Ticks s' → s'.handler ≠ none) ↔
      ∃ g, .take g ∈ tickBody q ∧ ∃ g' ∈ s.guards, g.Conflicts g' := by
  have ends : (∃ s', (s.interrupted (tick q)).Run calls Ticks s' ∧ s'.handler = none) ↔ _ :=
    Machine.handler_ends_iff (tick_obeys q) (tick_off q)
  have negated := not_congr ends
  push Not at negated
  exact negated

end Machine

/-- Whatever processes do with memory calls, calls of drivers and calls that are
refused, under any timer interrupts: no lock ever spins, and every timer interrupt
comes to its end. -/
theorem masked_calls_never_hang {T : Type} [DecidableEq T] {start s : Machine T Lock} (idle : Idle start)
    (run : start.Run {program | Masked program} Ticks s) :
    s.Advances ∧ (s.handler = none → (s.threads s.current).masked = false → ∀ q,
      ∃ s', (s.interrupted (tick q)).Run {program | Masked program} Ticks s' ∧ s'.handler = none) := by
  have safe := safe_run idle run
  exact ⟨safe.advances rule_peaceful, fun _ on q => ⟨_, safe.handler_leaves rule_peaceful on (tick_obeys q) s.current, rfl⟩⟩

/-- After masked calls a thread that is in no call finds the locks free. -/
theorem locks_free {T : Type} [DecidableEq T] {start s : Machine T Lock} (idle : Idle start)
    (run : start.Run {program | Masked program} Ticks s) {may : Guard Lock → Bool → Bool} {program : List (Action Lock)}
    (rules : obeys may program [] false = true)
    (quiet : ∀ g masked g', may g masked = true → rule g' false = true → ¬g.Conflicts g') :
    ∀ g, .take g ∈ program → ∀ g' ∈ s.others, ¬g.Conflicts g' := by
  intro g taken g' out
  have safe := safe_run idle run
  obtain ⟨masked, allowed⟩ := obeys_take rules taken
  obtain ⟨t, other, held⟩ := out
  exact quiet g masked g' allowed ((safe.threads t).unmasked (safe.waiting t other) g' held)

/-- The first of two processes is interrupted in a memory call, and the second one
goes on. -/
theorem first_interrupted (q : Sched) : ∃ s : Machine Bool Lock,
    Machine.Run {program | Masked program} Ticks ⟨fun _ => ⟨[], [], false⟩, false, none⟩ s ∧ s.handler = none ∧
    s.current = true ∧ syscalls.reads ∈ (s.threads false).held ∧ s.threads true = ⟨[], [], false⟩ := by
  have idle : Idle (⟨fun _ => ⟨[], [], false⟩, false, none⟩ : Machine Bool Lock) := ⟨rfl, fun _ => rfl⟩
  obtain ⟨c, run, off, holds⟩ := @Machine.call_takes Bool Lock _ rule syscalls.reads _ {program | Masked program} Ticks
    _ (memory 1) [] _ idle.1 (idle.2 false) (Masked.memory 1) rfl (masked_obeys (.memory 1))
    (locks_free idle .refl (masked_obeys (.memory 1)) rule_peaceful)
  have on : ((Function.update (fun _ => ⟨[], [], false⟩) false c : Bool → Code Lock) false).masked = false := by
    rw [Function.update_self, off]
    rfl
  have left := run.tail (.tick rfl on ⟨q, rfl⟩) |>.trans
    ((safe_run idle run).handler_leaves rule_peaceful on (tick_obeys q) true)
  refine ⟨_, left, rfl, rfl, ?_, rfl⟩
  dsimp only
  rw [Function.update_self]
  exact holds

/-- Two processes in the middle of a memory call, with a timer interrupt between them. -/
theorem masked_calls_never_hang_memory : ∃ s : Machine Bool Lock,
    Machine.Run {program | Masked program} Ticks ⟨fun _ => ⟨[], [], false⟩, false, none⟩ s ∧ s.current = true ∧
    syscalls.reads ∈ (s.threads false).held ∧ (table .normal).writes ∈ (s.threads true).held ∧ s.Advances := by
  have idle : Idle (⟨fun _ => ⟨[], [], false⟩, false, none⟩ : Machine Bool Lock) := ⟨rfl, fun _ => rfl⟩
  obtain ⟨s, first, ready, current, holds, fresh⟩ := first_interrupted { normalQueue := [0, 1] }
  have split : memory 1 = [.take syscalls.reads, .cli] ++ .take (table .normal).writes :: (allocations 1 ++
      [.give (table .normal).writes, .sti, .give syscalls.reads]) := rfl
  rw [← current] at fresh
  obtain ⟨c, second, _, writes⟩ := @Machine.call_takes Bool Lock _ rule (table .normal).writes _ {program | Masked program}
    Ticks _ _ _ _ ready fresh (Masked.memory 1) split (masked_obeys (.memory 1))
    (locks_free idle first (masked_obeys (.memory 1)) rule_peaceful)
  have run := first.trans second
  refine ⟨_, run, current, ?_, ?_, (masked_calls_never_hang idle run).1⟩
  · dsimp only
    rw [current, Function.update_of_ne Bool.false_ne_true]
    exact holds
  · dsimp only
    rw [current, Function.update_self]
    exact writes

/-- A timer interrupt hangs the machine for good exactly if a guard is out that
`switch_task` needs: of the LAPIC or of one of the queues; unless both queues are
empty, of the table into which it saves; or for writing of the table from which it
loads, if that has a process to load. -/
theorem tick_hangs_iff {T : Type} [DecidableEq T] (calls : Set (List (Action Lock))) (s : Machine T Lock) (q : Sched) :
    (∀ s', (s.interrupted (tick q)).Run calls Ticks s' → s'.handler ≠ none) ↔
      (∃ g ∈ s.guards, g.lock = lapic ∨ ∃ typ, g.lock = queue typ) ∨
      ((q.normalQueue ≠ [] ∨ q.driverQueue ≠ []) ∧ ∃ g ∈ s.guards, g.lock = table (nextClass q).other) ∨
      (q.queue (nextClass q) ≠ [] ∧ (table (nextClass q)).writes ∈ s.guards) := by
  rw [hangs_iff]
  simp only [mem_tickBody]
  constructor
  · rintro ⟨g, needed, g', out, same, kind⟩
    rcases needed with (rfl | ⟨typ, rfl⟩) | ⟨work, rfl⟩ | ⟨work, rfl⟩
    · exact Or.inl ⟨g', out, Or.inl same.symm⟩
    · exact Or.inl ⟨g', out, Or.inr ⟨typ, same.symm⟩⟩
    · exact Or.inr (Or.inl ⟨work, g', out, same.symm⟩)
    · obtain ⟨lock, exclusive⟩ := g'
      cases same
      cases kind.resolve_left Bool.false_ne_true
      exact Or.inr (Or.inr ⟨work, out⟩)
  · rintro (⟨g, out, same | ⟨typ, same⟩⟩ | ⟨work, g, out, same⟩ | ⟨work, out⟩)
    · exact ⟨_, Or.inl (Or.inl rfl), g, out, same.symm, Or.inl rfl⟩
    · exact ⟨_, Or.inl (Or.inr ⟨typ, rfl⟩), g, out, same.symm, Or.inl rfl⟩
    · exact ⟨_, Or.inr (Or.inl ⟨work, rfl⟩), g, out, same.symm, Or.inl rfl⟩
    · exact ⟨_, Or.inr (Or.inr ⟨work, rfl⟩), _, out, rfl, Or.inr rfl⟩

/-- The process syscall takes locks at any time, of `SYSCALL` only for reading. -/
def anytime (g : Guard Lock) (_ : Bool) : Bool := decide (g.lock ≠ syscalls) || !g.exclusive

theorem anytime_quiet {g g' : Guard Lock} {masked : Bool} (taken : anytime g masked = true) (quiet : rule g' false = true) :
    ¬g.Conflicts g' := by
  rintro ⟨same, kind⟩
  unfold rule at quiet
  split at quiet
  · rename_i reads
    rw [Bool.not_eq_true'] at quiet
    simp only [anytime, same.trans reads, ne_eq, not_true, decide_false, Bool.false_or, Bool.not_eq_true'] at taken
    rcases kind with writes | writes
    · exact Bool.false_ne_true (taken.symm.trans writes)
    · exact Bool.false_ne_true (quiet.symm.trans writes)
  · cases quiet

theorem process_obeys {n m : Nat} {body : List (Action Lock)} (inner : Nested anytime [syscalls.reads] false body) :
    obeys anytime (process n body m) [] false = true := by
  have copy : Nested anytime [syscalls.reads] false (masking (allocations n)) :=
    (nested_allocations n rfl (by decide)).masking (by decide)
  exact ((copy.append (inner.append (nested_allocations m rfl (by decide)))).guarded rfl (by decide)).whole

theorem maskAfter_short (ls : List Lock) (masked : Bool) : maskAfter (short ls) masked = masked := by
  induction ls with
  | nil => rfl
  | cons l ls ih => exact ih

theorem process_table {typ : ProcType} {n m : Nat} {work : List Lock} {body : List (Action Lock)} :
    ∃ before after, process n (short work ++ guarded (table typ).writes body) m =
      before ++ .take (table typ).writes :: after ∧ maskAfter before false = false := by
  refine ⟨.take syscalls.reads :: (masking (allocations n) ++ short work),
    body ++ [.give (table typ).writes] ++ allocations m ++ [.give syscalls.reads], ?_, ?_⟩
  · simp only [process, syscall, guarded, List.append_assoc, List.cons_append]
  · change maskAfter (masking (allocations n) ++ short work) false = false
    rw [maskAfter_append, maskAfter_short, maskAfter_masking]

/-- A process call up to its guard of the process table. -/
theorem changes_table {typ : ProcType} {program : List (Action Lock)} (changes : Changes typ program) :
    obeys anytime program [] false = true ∧
      ∃ before after, program = before ++ .take (table typ).writes :: after ∧ maskAfter before false = false := by
  have plain (l : Lock) (member : l = frames ∨ l = console ∨ l = serial) : anytime l.writes false = true ∧
      ∀ l' ∈ [syscalls, table typ], l' ≠ l := by
    rcases member with rfl | rfl | rfl <;> exact ⟨rfl, by simp⟩
  cases changes with
  | @creates n m k work log leaves =>
    have leaf (l : Lock) (member : l ∈ work ∨ l ∈ log) := plain l (leaves l (List.mem_append.mpr member))
    have loads : Nested anytime [syscalls.reads] false (short work) :=
      nested_short (fun l member => (leaf l (Or.inl member)).1) fun l member g known => by
        cases List.mem_singleton.mp known
        exact (leaf l (Or.inl member)).2 _ (by simp [reads])
    have logs : Nested anytime [(table typ).writes, syscalls.reads] false (short log) :=
      nested_short (fun l member => (leaf l (Or.inr member)).1) fun l member g known => by
        refine (leaf l (Or.inr member)).2 _ ?_
        rcases List.mem_cons.mp known with rfl | last
        · simp [writes]
        · cases List.mem_singleton.mp last
          simp [reads]
    have pushes : Nested anytime [(table typ).writes, syscalls.reads] false (guarded (queue typ).writes (allocations m)) :=
      (nested_allocations m rfl (by simp [writes, reads])).guarded rfl (by simp [Guard.Conflicts, writes, reads])
    have section_ : Nested anytime [syscalls.reads] false (enlist typ log m) :=
      (logs.append pushes).guarded rfl (by simp [Guard.Conflicts, writes, reads])
    exact ⟨process_obeys (loads.append section_), process_table⟩
  | @absent n k =>
    refine ⟨process_obeys (nested_nil.guarded rfl ?_), @process_table typ n k [] []⟩
    simp [Guard.Conflicts, writes, reads]
  | @removes n k =>
    have cleans : Nested anytime [(table typ).writes, syscalls.reads] false (short [frames]) :=
      nested_short (by simp [anytime, writes]) (by simp [writes, reads])
    have retains : Nested anytime [(table typ).writes, syscalls.reads] false (guarded (queue typ).writes []) :=
      nested_nil.guarded rfl (by simp [Guard.Conflicts, writes, reads])
    exact ⟨process_obeys ((cleans.append retains).guarded rfl (by simp [Guard.Conflicts, writes, reads])),
      @process_table typ n k [] _⟩

theorem kind_cases (typ : ProcType) (q : Sched) : typ = nextClass q ∨ typ = (nextClass q).other := by
  cases typ <;> cases nextClass q <;> simp [ProcType.other]

/-- Wherever a guard for writing of a process table is out, a timer interrupt hangs
the machine for good if the queue of that kind is not empty. -/
theorem table_hangs {T : Type} [DecidableEq T] {calls : Set (List (Action Lock))} {s : Machine T Lock} {typ : ProcType}
    {q : Sched} (work : q.queue typ ≠ []) (out : (table typ).writes ∈ s.guards) :
    ∀ s', (s.interrupted (tick q)).Run calls Ticks s' → s'.handler ≠ none := by
  refine hangs_iff.mpr ?_
  rcases kind_cases typ q with loads | saves
  · exact ⟨_, mem_tickBody.mpr (Or.inr (Or.inr ⟨loads ▸ work, rfl⟩)), _, out, by rw [loads]; rfl, Or.inr rfl⟩
  · exact ⟨_, mem_tickBody.mpr (Or.inr (Or.inl ⟨busy work, rfl⟩)), _, out, by rw [saves], Or.inl rfl⟩

/-- A process call that finds its locks free comes to a process table with interrupts
on. In every state in which it holds the guard of this table, a timer interrupt hangs
the machine for good, if the queue of that kind is not empty: as it is for the kind of
the caller. -/
theorem process_call_hangs {T : Type} [DecidableEq T] {typ : ProcType} {program : List (Action Lock)}
    (changes : Changes typ program) {calls : Set (List (Action Lock))} (member : program ∈ calls)
    {before : Machine T Lock} (ready : before.handler = none) (caller : before.threads before.current = ⟨[], [], false⟩)
    (free : ∀ g, .take g ∈ program → ∀ g' ∈ before.others, ¬g.Conflicts g') {q : Sched} (work : q.queue typ ≠ []) :
    (∃ s, before.Run calls Ticks s ∧ s.handler = none ∧ (s.threads s.current).masked = false ∧
      (table typ).writes ∈ (s.threads s.current).held) ∧
    ∀ s : Machine T Lock, (table typ).writes ∈ s.guards →
      ∀ s', (s.interrupted (tick q)).Run calls Ticks s' → s'.handler ≠ none := by
  obtain ⟨rules, pre, post, split, mask⟩ := changes_table changes
  obtain ⟨c, goes, masked, holds⟩ := Machine.call_takes ready caller member split rules free
  refine ⟨⟨_, goes, ready, ?_, ?_⟩, fun s out => table_hangs work out⟩
  · dsimp only
    rw [Function.update_self, masked, mask]
  · dsimp only
    rw [Function.update_self]
    exact holds

/-- One process was interrupted in a memory call, and another one then asks for one
that is not there to be removed. -/
theorem process_call_hangs_absent : ∃ before s : Machine Bool Lock,
    Machine.Run {program | Masked program} Ticks ⟨fun _ => ⟨[], [], false⟩, false, none⟩ before ∧
    before.Run {process 0 (guarded (table .normal).writes []) 0} Ticks s ∧ s.handler = none ∧
    (s.threads s.current).masked = false ∧
    ∀ s', (s.interrupted (tick { normalQueue := [0] })).Run {process 0 (guarded (table .normal).writes []) 0} Ticks s' →
      s'.handler ≠ none := by
  have idle : Idle (⟨fun _ => ⟨[], [], false⟩, false, none⟩ : Machine Bool Lock) := ⟨rfl, fun _ => rfl⟩
  have work : Sched.queue { normalQueue := [0] } .normal ≠ [] := List.cons_ne_nil 0 []
  have changes : Changes .normal (process 0 (guarded (table .normal).writes []) 0) := .absent
  have member : process 0 (guarded (table .normal).writes []) 0 ∈
      ({process 0 (guarded (table .normal).writes []) 0} : Set (List (Action Lock))) := rfl
  obtain ⟨before, first, ready, current, _, fresh⟩ := first_interrupted { normalQueue := [0, 1] }
  rw [← current] at fresh
  obtain ⟨⟨s, run, done, on, holds⟩, hangs⟩ := process_call_hangs changes member ready fresh
    (locks_free idle first (changes_table changes).1 fun _ _ _ => anytime_quiet) work
  exact ⟨before, s, first, run, done, on, hangs s ⟨_, holds⟩⟩

theorem mem_allocations {n : Nat} {g : Guard Lock} : .take g ∈ allocations n ↔ n ≠ 0 ∧ g = frames.writes := by
  simp only [allocations, short, guarded, List.nil_append, List.mem_flatMap, List.mem_replicate, List.mem_cons,
    Action.take.injEq, reduceCtorEq, List.not_mem_nil, or_false]
  constructor
  · rintro ⟨_, ⟨positive, rfl⟩, taken⟩
    exact ⟨positive, taken⟩
  · rintro ⟨positive, taken⟩
    exact ⟨frames, ⟨positive, rfl⟩, taken⟩

/-- A memory call gets through exactly if no other process was interrupted while it
held a guard of `NORMAL_PROCESS` or, if the call needs frames, of the frame
allocator. Otherwise nothing happens any more, as interrupts are off. -/
theorem memory_call_completes_iff {T : Type} [DecidableEq T] (calls : Set (List (Action Lock))) {s : Machine T Lock}
    {n : Nat} (idle : s.handler = none) (begun : s.threads s.current =
      ⟨guarded (table .normal).writes (allocations n) ++ [.sti, .give syscalls.reads], [syscalls.reads], true⟩) :
    (∃ s', s.Run calls Ticks s' ∧ (s'.threads s.current).masked = false) ↔
      ∀ g ∈ s.others, g.lock ≠ table .normal ∧ (n ≠ 0 → g.lock ≠ frames) := by
  have takes (g : Guard Lock) : .take g ∈ guarded (table .normal).writes (allocations n) ↔
      g = (table .normal).writes ∨ n ≠ 0 ∧ g = frames.writes := by
    simp [guarded, mem_allocations]
  have off : .sti ∉ guarded (table .normal).writes (allocations n) := by
    simp [guarded, allocations, short]
  have nested : Nested rule [syscalls.reads] true (guarded (table .normal).writes (allocations n)) :=
    (nested_allocations n rfl (by decide)).guarded rfl (by decide)
  have rules : obeys rule (s.threads s.current).rest (s.threads s.current).held (s.threads s.current).masked = true := by
    rw [begun]
    dsimp only
    rw [nested]
    decide
  have ends : (∃ s', s.Run calls Ticks s' ∧ (s'.threads s.current).masked = false) ↔ _ :=
    Machine.thread_unmasks_iff idle (by rw [begun]) (by rw [begun]) rules off
  rw [ends]
  constructor
  · intro free g out
    refine ⟨fun same => ?_, fun positive same => ?_⟩
    · exact free _ ((takes _).mpr (Or.inl rfl)) g out ⟨same.symm, Or.inl rfl⟩
    · exact free _ ((takes _).mpr (Or.inr ⟨positive, rfl⟩)) g out ⟨same.symm, Or.inl rfl⟩
  · intro free g taken g' out conflict
    rcases (takes g).mp taken with rfl | ⟨positive, rfl⟩
    · exact (free g' out).1 conflict.1.symm
    · exact (free g' out).2 positive conflict.1.symm

/-- A process is interrupted in `create` while it takes frames, and another one then
asks for memory. -/
theorem memory_call_hangs_after_create : ∃ s : Machine Bool Lock, s.handler = none ∧
    s.threads false = ⟨.give frames.writes :: enlist .normal [] 0 ++ [.give syscalls.reads],
      [frames.writes, syscalls.reads], false⟩ ∧
    ¬∃ s', s.Run {program | Masked program} Ticks s' ∧ (s'.threads true).masked = false := by
  refine ⟨⟨fun t => if t then ⟨guarded (table .normal).writes (allocations 1) ++ [.sti, .give syscalls.reads],
    [syscalls.reads], true⟩ else ⟨_, [frames.writes, syscalls.reads], false⟩, true, none⟩, rfl, rfl, fun through => ?_⟩
  have free := (memory_call_completes_iff {program | Masked program} rfl rfl).mp through frames.writes
    ⟨false, Bool.false_ne_true, List.mem_cons_self ..⟩
  exact free.2 (by decide) rfl

end Lock

end ProkaKernel
