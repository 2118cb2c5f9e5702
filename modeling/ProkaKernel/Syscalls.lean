import ProkaKernel.UserCopy

namespace ProkaKernel

/-- The functions that `syscall::init` registers. -/
inductive SyscallFn
  | process
  | power
  | memory
  deriving DecidableEq

/-- `SyscallEntry`. -/
structure RegisteredCall where
  sysnum : UInt64
  pageTable : UInt64
  stack : UInt64
  entry : SyscallFn

/-- The table `SYSCALL` after `syscall::init`. -/
def registeredCalls : List RegisteredCall := [
  ⟨0, 0x100000, 0xffff8000005ffff0, .process⟩,
  ⟨1, 0x100000, 0xffff8000005ffff0, .power⟩,
  ⟨2, 0x100000, 0xffff8000005ffff0, .memory⟩]

/-- The five arguments of a system call. -/
structure SyscallArgs where
  arg1 : UInt64 := 0
  arg2 : UInt64 := 0
  arg3 : UInt64 := 0
  arg4 : UInt64 := 0
  arg5 : UInt64 := 0

inductive ProcessSyscallRequest
  | killTasks
  | createTasks

def ProcessSyscallRequest.ofNumber (n : UInt64) : Option ProcessSyscallRequest :=
  if n = 0 then some .killTasks else if n = 1 then some .createTasks else none

inductive PowerActions
  | powerOff
  | reboot

def PowerActions.ofNumber (n : UInt64) : Option PowerActions :=
  if n = 0 then some .powerOff else if n = 1 then some .reboot else none

inductive MemorySyscallType
  | allocate
  | deallocate

def MemorySyscallType.ofNumber (n : UInt64) : Option MemorySyscallType :=
  if n = 0 then some .allocate else if n = 1 then some .deallocate else none

/-- The kind of process in the last argument of the process syscall. -/
def ProcType.ofNumber (n : UInt64) : Option ProcType :=
  if n = 0 then some .normal else if n = 1 then some .driver else none

/-- A call returns, or it turns the machine off and does not. -/
inductive CallEnd
  | returns (result : Int) (k : Kernel)
  | off (k : Kernel)

/-- The result of a function that only says whether it failed. -/
def errorCode {ε : Type} (code : Int) : Except ε Unit → Int
  | .ok _ => 0
  | .error _ => code

/-- The result of a function whose errors are codes. -/
def resultCode : Except Int Int → Int
  | .ok value => value
  | .error code => code

namespace Kernel

section Model
variable (mapper : PageMapper) (parse : List UInt8 → Option Image) (overflow : Overflow)

/-- `process`; `none` is a panic. -/
def processSyscall (k : Kernel) (userTable : Nat) (args : SyscallArgs) : Option CallEnd :=
  match UserCopy.copyBufferToKernel overflow k.mem (userTable / 4096) args.arg3.toNat args.arg4.toNat with
  | none => none
  | some none => some (.returns (-2) k)
  | some (some kernelBuf) =>
    match ProcessSyscallRequest.ofNumber args.arg1 with
    | none => some (.returns (-3) k)
    | some .killTasks =>
      match ProcType.ofNumber args.arg5 with
      | none => some (.returns (-4) k)
      | some typ => (remove mapper typ args.arg2.toNat k).map fun out => .returns (errorCode (-5) out.1) out.2
    | some .createTasks =>
      (create mapper parse kernelBuf (args.arg2.toNat % 256) k).map fun out => .returns (errorCode (-6) out.1) out.2

/-- `power`: both queues are cleared before the machine goes off. -/
def powerSyscall (k : Kernel) (args : SyscallArgs) : Option CallEnd :=
  match PowerActions.ofNumber args.arg1 with
  | none => some (.returns (-2) k)
  | some _ => some (.off { k with sched := { k.sched with normalQueue := [], driverQueue := [] } })

/-- `memory`. -/
def memorySyscall (k : Kernel) (userTable : Nat) (args : SyscallArgs) : Option CallEnd :=
  match MemorySyscallType.ofNumber args.arg1 with
  | none => some (.returns (-2) k)
  | some .allocate =>
    (allocate mapper userTable args.arg2.toNat k).map fun out => .returns (resultCode out.1) out.2
  | some .deallocate =>
    (deallocate mapper userTable args.arg3.toNat k).map fun out => .returns (resultCode out.1) out.2

/-- `syscall_handler`: the first call that is registered under the number. -/
def syscall (k : Kernel) (userTable : Nat) (callNum : UInt64) (args : SyscallArgs) : Option CallEnd :=
  match registeredCalls.find? fun call => call.sysnum == callNum with
  | none => some (.returns (-1) k)
  | some call =>
    match call.entry with
    | .process => k.processSyscall mapper parse overflow userTable args
    | .power => k.powerSyscall args
    | .memory => k.memorySyscall mapper userTable args

/-- Runs in which processes only make system calls, with interrupts and page faults
between them, from any state to which the kernel came by itself. -/
inductive CallReach (start : Kernel) : Kernel → Set Nat → Prop
  | started {k tables} : Reach mapper parse start k tables → CallReach start k tables
  | calls {k k' tables userTable callNum args result} : CallReach start k tables → userTable ∈ tables →
      k.syscall mapper parse overflow userTable callNum args = some (.returns result k') →
      CallReach start k' (tables ∪ k'.tables)
  | faults {k k' tables pml4 addr} : CallReach start k tables → pml4 ∈ tables →
      k.step mapper parse (.pagefault pml4 addr) = some k' → CallReach start k' (tables ∪ k'.tables)
  | ticks {k k' tables regs cr3} : CallReach start k tables → k.step mapper parse (.tick regs cr3) = some k' →
      CallReach start k' (tables ∪ k'.tables)

/-- All that a registered call that returns has done. -/
inductive CallDone (k : Kernel) (userTable : Nat) (args : SyscallArgs) : Int → Kernel → Prop
  | refused {result} : result ∈ [-2, -3, -4] → CallDone k userTable args result k
  | removed {typ k'} {out : Except Error Unit} : remove mapper typ args.arg2.toNat k = some (out, k') →
      CallDone k userTable args (errorCode (-5) out) k'
  | created {kernelBuf k'} {out : Except Error Unit} :
      UserCopy.copyBufferToKernel overflow k.mem (userTable / 4096) args.arg3.toNat args.arg4.toNat = some (some kernelBuf) →
      create mapper parse kernelBuf (args.arg2.toNat % 256) k = some (out, k') →
      CallDone k userTable args (errorCode (-6) out) k'
  | allocated {k'} {out : Except Int Int} : allocate mapper userTable args.arg2.toNat k = some (out, k') →
      CallDone k userTable args (resultCode out) k'
  | deallocated {k'} {out : Except Int Int} : deallocate mapper userTable args.arg3.toNat k = some (out, k') →
      CallDone k userTable args (resultCode out) k'

end Model

section Cases
variable {mapper : PageMapper} {parse : List UInt8 → Option Image} {overflow : Overflow} {k k' : Kernel} {userTable : Nat}
  {callNum : UInt64} {args : SyscallArgs} {result : Int}

theorem processSyscall_done (run : k.processSyscall mapper parse overflow userTable args = some (.returns result k')) :
    CallDone mapper parse overflow k userTable args result k' := by
  unfold processSyscall at run
  split at run
  · cases run
  · cases run
    exact .refused (by decide)
  · rename_i kernelBuf copied
    split at run
    · cases run
      exact .refused (by decide)
    · split at run
      · cases run
        exact .refused (by decide)
      · obtain ⟨⟨out, k1⟩, removed, same⟩ := Option.map_eq_some_iff.mp run
        cases same
        exact .removed removed
    · obtain ⟨⟨out, k1⟩, created, same⟩ := Option.map_eq_some_iff.mp run
      cases same
      exact .created copied created

theorem powerSyscall_done (run : k.powerSyscall args = some (.returns result k')) :
    CallDone mapper parse overflow k userTable args result k' := by
  unfold powerSyscall at run
  split at run
  · cases run
    exact .refused (by decide)
  · cases run

theorem memorySyscall_done (run : k.memorySyscall mapper userTable args = some (.returns result k')) :
    CallDone mapper parse overflow k userTable args result k' := by
  unfold memorySyscall at run
  split at run
  · cases run
    exact .refused (by decide)
  · obtain ⟨⟨out, k1⟩, allocated, same⟩ := Option.map_eq_some_iff.mp run
    cases same
    exact .allocated allocated
  · obtain ⟨⟨out, k1⟩, deallocated, same⟩ := Option.map_eq_some_iff.mp run
    cases same
    exact .deallocated deallocated

theorem syscall_done (run : k.syscall mapper parse overflow userTable callNum args = some (.returns result k')) :
    ((∀ call ∈ registeredCalls, call.sysnum ≠ callNum) ∧ result = -1 ∧ k' = k) ∨
      ((∃ call ∈ registeredCalls, call.sysnum = callNum) ∧ CallDone mapper parse overflow k userTable args result k') := by
  unfold syscall at run
  split at run
  · rename_i missing
    cases run
    refine Or.inl ⟨fun call member same => ?_, rfl, rfl⟩
    exact absurd (beq_iff_eq.mpr same) (List.find?_eq_none.mp missing call member)
  · rename_i call found
    refine Or.inr ⟨⟨call, List.mem_of_find?_eq_some found, beq_iff_eq.mp (List.find?_some found :)⟩, ?_⟩
    split at run
    · exact processSyscall_done run
    · exact powerSyscall_done run
    · exact memorySyscall_done run

end Cases

section Codes
open Prog
variable {mapper : PageMapper} {k : Kernel} {R : Set Nat} {root : Nat}

/-- The loops of the heap calls have no errors of their own. -/
theorem releasePage_quiet {ε : Type} {E : ε → Kernel → Prop} (page : Nat) :
    wp (releasePage mapper root page) (fun _ _ => True) E k := by
  refine wp_bind (wp_unmap mapper fun frame m run => ?_)
  cases frame with
  | none => exact wp_pure trivial
  | some frame => exact wp_write trivial

theorem rollback_quiet {ε : Type} {E : ε → Kernel → Prop} (pages : List Nat) :
    wp (rollback mapper root pages) (fun _ _ => True) E k := by
  induction pages generalizing k with
  | nil => exact wp_pure trivial
  | cons page pages ih => exact wp_bind ((releasePage_quiet page).mono (fun _ _ _ => ih) fun _ _ => id)

theorem shrinkHeap_quiet {E : Int → Kernel → Prop} (start left i : Nat) :
    wp (shrinkHeap mapper root start left i) (fun _ _ => True) E k := by
  induction left generalizing k i with
  | zero => exact wp_pure trivial
  | succ left ih =>
    exact wp_bind (wp_pageAt fun _ => wp_bind ((releasePage_quiet _).mono (fun _ _ _ => ih (i + 1)) fun _ _ => id))

theorem growHeap_code (top left i : Nat) (allocated : List Nat) :
    wp (growHeap mapper root top left i allocated) (fun _ _ => True) (fun code _ => code = -18) k := by
  have undo {k1 : Kernel} (pages : List Nat) : wp (rollback mapper root pages >>= fun _ => Prog.fail (-18))
      (fun (_ : Unit) _ => True) (fun (code : Int) _ => code = -18) k1 :=
    wp_bind ((rollback_quiet pages).mono (fun _ _ _ => wp_fail rfl) fun _ _ => id)
  induction left generalizing k i allocated with
  | zero => exact wp_pure trivial
  | succ left ih =>
    refine wp_bind (wp_allocateContiguous (fun _ => undo allocated) fun phys a run => ?_)
    refine wp_bind (wp_pageAt fun bound => wp_bind (wp_mapTo mapper fun done m a' mapped => ?_))
    cases done with
    | false => exact undo allocated
    | true => exact ih (i + 1) _

/-- A heap call that fails returns a code, and leaves the processes as they are. -/
theorem allocate_codes (size : Nat) (valid : k.Valid R) (member : root ∈ R) :
    wp (allocate mapper (root * 4096) size) (fun value _ => 0 ≤ value)
      (fun code k' => code ∈ [-16, -17, -18] ∧ k'.sched = k.sched) k := by
  unfold allocate
  rw [Nat.mul_div_cancel root (by decide)]
  split
  · exact wp_fail ⟨by decide, rfl⟩
  · refine wp_bind (wp_read ?_)
    split
    · exact wp_fail ⟨by decide, rfl⟩
    · refine wp_bind (((growHeap_wp mapper _ _ 0 [] valid.stage.trail member fun _ none =>
        absurd none List.not_mem_nil).and (growHeap_code _ _ 0 [])).mono ?_ ?_)
      · exact fun _ k1 _ => wp_bind (wp_write (wp_pure (Int.natCast_nonneg _)))
      · rintro code k1 ⟨trail, rfl⟩
        exact ⟨by decide, trail.stage.sched⟩

theorem deallocate_codes (addr : Nat) :
    wp (deallocate mapper (root * 4096) addr) (fun value _ => 0 ≤ value)
      (fun code k' => code ∈ [-16, -17] ∧ k'.sched = k.sched) k := by
  unfold deallocate
  rw [Nat.mul_div_cancel root (by decide)]
  refine wp_bind (wp_read ?_)
  split
  · exact wp_fail ⟨by decide, rfl⟩
  · dsimp only
    split
    · exact wp_fail ⟨by decide, rfl⟩
    · exact wp_bind ((shrinkHeap_quiet ..).mono (fun _ k1 _ => wp_bind (wp_write (wp_pure (Int.le_refl 0)))) fun _ _ => id)

/-- A removal that fails changes nothing. -/
theorem remove_error {typ : ProcType} {index : Nat} {e : Error} {k' : Kernel}
    (run : remove mapper typ index k = some (.error e, k')) : k' = k := by
  have same : wp (remove mapper typ index) (fun _ _ => True) (fun _ k' => k' = k) k := by
    refine wp_bind (wp_read ?_)
    split
    · exact wp_fail rfl
    · exact wp_bind (wp_cleanUp mapper fun m a _ => wp_write trivial)
  exact same.error run

theorem create_error {parse : List UInt8 → Option Image} {data : List UInt8} {priority : Nat} {e : Error} {k' : Kernel}
    (valid : k.Valid R) (run : create mapper parse data priority k = some (.error e, k')) : k'.sched = k.sched := by
  obtain ⟨R', _, trail⟩ := (create_wp mapper parse data priority valid.stage).error run
  exact trail.stage.sched

end Codes

theorem errorCode_cases {ε : Type} {code : Int} (low : code < -1) (out : Except ε Unit) :
    errorCode code out ≠ -1 ∧ (errorCode code out < 0 → ∃ e, out = .error e) := by
  cases out with
  | error e =>
    simp only [errorCode]
    exact ⟨by omega, fun _ => ⟨e, rfl⟩⟩
  | ok _ => simp [errorCode]

theorem resultCode_cases {out : Except Int Int} (value : ∀ v, out = .ok v → 0 ≤ v) (code : ∀ e, out = .error e → e < -1) :
    resultCode out ≠ -1 ∧ (resultCode out < 0 → ∃ e, out = .error e) := by
  cases out with
  | error e =>
    have low := code e rfl
    simp only [resultCode]
    exact ⟨by omega, fun _ => ⟨e, rfl⟩⟩
  | ok v =>
    have high := value v rfl
    simp only [resultCode]
    exact ⟨by omega, by omega⟩

section
variable {mapper : PageMapper} {parse : List UInt8 → Option Image} {overflow : Overflow} {k k' : Kernel} {R : Set Nat}
  {root userTable : Nat} {args : SyscallArgs} {result : Int}

/-- A call that returns is at most one event of the kernel. If it returns a negative
number, the processes and the queues are as before. -/
theorem CallDone.event (done : CallDone mapper parse overflow k userTable args result k')
    (valid : k.Valid R) (member : root ∈ R)
    (caller : userTable = root * 4096) : result ≠ -1 ∧ (result < 0 → k'.sched = k.sched) ∧
      (k' = k ∨ ∃ event, (∀ tables, userTable ∈ tables → event.By tables) ∧ k.step mapper parse event = some k') := by
  subst caller
  cases done with
  | refused code =>
    refine ⟨?_, fun _ => rfl, Or.inl rfl⟩
    rintro rfl
    revert code
    decide
  | @removed typ _ out run =>
    obtain ⟨known, failed⟩ := errorCode_cases (by decide : (-5 : Int) < -1) out
    refine ⟨known, fun negative => ?_, Or.inr ⟨.remove typ args.arg2.toNat, fun _ _ => trivial, by rw [step, run]; rfl⟩⟩
    obtain ⟨e, rfl⟩ := failed negative
    rw [remove_error run]
  | @created kernelBuf _ out _ run =>
    obtain ⟨known, failed⟩ := errorCode_cases (by decide : (-6 : Int) < -1) out
    refine ⟨known, fun negative => ?_, Or.inr ⟨.create kernelBuf (args.arg2.toNat % 256), fun _ _ => trivial, by
      rw [step, run]; rfl⟩⟩
    obtain ⟨e, rfl⟩ := failed negative
    exact create_error valid run
  | @allocated _ out run =>
    have codes := @allocate_codes mapper k R root args.arg2.toNat valid member
    obtain ⟨known, failed⟩ := @resultCode_cases out (fun v ok => codes.ok (ok ▸ run)) fun e error => by
      have listed := (codes.error (error ▸ run)).1
      simp only [List.mem_cons, List.not_mem_nil, or_false] at listed
      omega
    refine ⟨known, fun negative => ?_, Or.inr ⟨.allocate (root * 4096) args.arg2.toNat, fun _ caller => caller, by
      rw [step, run]; rfl⟩⟩
    obtain ⟨e, rfl⟩ := failed negative
    exact (codes.error run).2
  | @deallocated _ out run =>
    have codes := @deallocate_codes mapper k root args.arg3.toNat
    obtain ⟨known, failed⟩ := @resultCode_cases out (fun v ok => codes.ok (ok ▸ run)) fun e error => by
      have listed := (codes.error (error ▸ run)).1
      simp only [List.mem_cons, List.not_mem_nil, or_false] at listed
      omega
    refine ⟨known, fun negative => ?_, Or.inr ⟨.deallocate (root * 4096) args.arg3.toNat, fun _ caller => caller, by
      rw [step, run]; rfl⟩⟩
    obtain ⟨e, rfl⟩ := failed negative
    exact (codes.error run).2

theorem Reach.has_tables {map : MemoryMap} {start : Kernel} {tables : Set Nat} (boot : start.Boot map)
    (reach : Reach mapper parse start k tables) : k.tables ⊆ tables := by
  cases reach with
  | boot =>
    rintro t ⟨nonzero, typ, i, rfl⟩
    rw [boot.sched] at nonzero
    exact absurd (by cases typ <;> rfl) nonzero
  | next => exact Set.subset_union_right

/-- A state that processes can bring about by their system calls is one of the runs
of the kernel's events. -/
theorem CallReach.reach {map : MemoryMap} {start : Kernel} {tables : Set Nat} (boot : start.Boot map)
    (calls : CallReach mapper parse overflow start k tables) : Reach mapper parse start k tables := by
  induction calls with
  | started reach => exact reach
  | @calls k k' tables userTable callNum args result _ caller run ih =>
    have stays (same : k' = k) : Reach mapper parse start k' (tables ∪ k'.tables) := by
      rw [same, Set.union_eq_self_of_subset_right (ih.has_tables boot)]
      exact ih
    rcases syscall_done run with ⟨_, _, same⟩ | ⟨_, done⟩
    · exact stays same
    · obtain ⟨R, valid, known⟩ := ih.valid mapper parse boot
      obtain ⟨root, member, table⟩ := known userTable caller
      obtain ⟨_, _, same | ⟨event, owner, step⟩⟩ := done.event valid member table
      · exact stays same
      · exact .next ih (owner tables caller) step
  | @faults _ _ _ pml4 addr _ caller run ih =>
      exact Reach.next ih (show KernelEvent.By _ (.pagefault pml4 addr) from caller) run
  | @ticks _ _ _ regs cr3 _ run ih => exact Reach.next ih (show KernelEvent.By _ (.tick regs cr3) from trivial) run

end

/-- System calls refine the events of the kernel. Whatever processes do with them,
the state is one of the runs of `create`, `remove`, `allocate`, `deallocate`, page
faults and ticks; a call returns -1 exactly if its number is not registered, and a
call that returns a negative number leaves the processes and the queues as they
were. -/
theorem syscalls_refine_events (mapper : PageMapper) (parse : List UInt8 → Option Image) (overflow : Overflow) {map : MemoryMap}
    {start k : Kernel} {tables : Set Nat} (boot : start.Boot map) (calls : CallReach mapper parse overflow start k tables) :
    Reach mapper parse start k tables ∧ ∀ userTable ∈ tables, ∀ callNum args result k',
      k.syscall mapper parse overflow userTable callNum args = some (.returns result k') →
        (result = -1 ↔ ∀ call ∈ registeredCalls, call.sysnum ≠ callNum) ∧ (result < 0 → k'.sched = k.sched) ∧
        (k' ≠ k → ∃ event : KernelEvent, event.By tables ∧ k.step mapper parse event = some k') := by
  have reach := calls.reach boot
  refine ⟨reach, fun userTable caller callNum args result k' run => ?_⟩
  rcases syscall_done run with ⟨unknown, code, same⟩ | ⟨⟨call, listed, number⟩, done⟩
  · exact ⟨iff_of_true code unknown, fun _ => by rw [same], fun changed => absurd same changed⟩
  · obtain ⟨R, valid, known⟩ := reach.valid mapper parse boot
    obtain ⟨root, member, table⟩ := known userTable caller
    obtain ⟨other, failed, event⟩ := done.event valid member table
    refine ⟨iff_of_false other fun unknown => unknown call listed number, failed, fun changed => ?_⟩
    obtain ⟨event, owner, step⟩ := event.resolve_left changed
    exact ⟨event, owner tables caller, step⟩

/-- A process that takes a page by one call and is refused another. -/
theorem syscalls_refine_events_refused :
    ∃ k tables, CallReach FourLevel.mapper flatParse .panics smallKernel k tables ∧
      (k.sched.normalProcess 0).heapRange = [⟨0x180000000, 0x180001000⟩] ∧ 0x1e02 * 4096 ∈ tables ∧
      k.syscall FourLevel.mapper flatParse .panics (0x1e02 * 4096) 1 ⟨2, 0, 0, 0, 0⟩ = some (.returns (-2) k) ∧
      Reach FourLevel.mapper flatParse smallKernel k tables ∧ ∃ call ∈ registeredCalls, call.sysnum = 1 := by
  have run : ((smallKernel.step FourLevel.mapper flatParse (.create [0x90] 0)).bind fun k1 =>
      (k1.syscall FourLevel.mapper flatParse .panics (0x1e02 * 4096) 2 ⟨0, 1, 0, 0, 0⟩).bind fun out =>
        match out with
        | .returns result k2 => some ((k1.sched.slot .normal 0).tableAddr, result, (k2.sched.normalProcess 0).heapRange)
        | .off _ => none) = some (0x1e02 * 4096, 0x180000000, [⟨0x180000000, 0x180001000⟩]) := by
    decide +kernel
  obtain ⟨k1, first, run⟩ := Option.bind_eq_some_iff.mp run
  obtain ⟨out, second, run⟩ := Option.bind_eq_some_iff.mp run
  cases out with
  | off _ => cases run
  | returns result k2 =>
    simp only [Option.some.injEq, Prod.mk.injEq] at run
    obtain ⟨table, _, heap⟩ := run
    have caller : 0x1e02 * 4096 ∈ ∅ ∪ k1.tables := Or.inr ⟨by decide, .normal, 0, table⟩
    have calls : CallReach FourLevel.mapper flatParse .panics smallKernel k2 (∅ ∪ k1.tables ∪ k2.tables) :=
      .calls (.started (Reach.boot.next (by exact trivial) first)) caller second
    have refused : k2.syscall FourLevel.mapper flatParse .panics (0x1e02 * 4096) 1 ⟨2, 0, 0, 0, 0⟩ = some (.returns (-2) k2) :=
      rfl
    obtain ⟨reach, each⟩ := syscalls_refine_events FourLevel.mapper flatParse .panics smallKernel_boot calls
    have known := (not_congr (each _ (Or.inl caller) _ _ _ _ refused).1).mp (by decide)
    push Not at known
    exact ⟨k2, _, calls, heap, Or.inl caller, refused, reach, known⟩

theorem createCall_copies {mapper : PageMapper} {parse : List UInt8 → Option Image} {overflow : Overflow} {k k' : Kernel}
    {userTable : Nat} {args : SyscallArgs} (aligned : args.arg3.toNat % 4096 = 0) (whole : args.arg4.toNat % 4096 = 0)
    (fits : args.arg3.toNat + args.arg4.toNat ≤ 2 ^ 64) (creates : args.arg1 = 1)
    (run : k.syscall mapper parse overflow userTable 0 args = some (.returns 0 k')) :
    ∃ bytes, UserCopy.Exact k.mem (userTable / 4096) args.arg3.toNat args.arg4.toNat (some bytes) ∧
      create mapper parse bytes (args.arg2.toNat % 256) k = some (.ok (), k') := by
  have called : k.processSyscall mapper parse overflow userTable args = some (.returns 0 k') := run
  have bound := args.arg4.toNat_lt
  obtain ⟨out, copied, exact⟩ := @UserCopy.exact_of_whole_pages overflow k.mem (userTable / 4096) _ _ aligned whole fits
    (by omega)
  have request : ProcessSyscallRequest.ofNumber args.arg1 = some .createTasks := by
    rw [creates]
    rfl
  unfold processSyscall at called
  rw [copied, request] at called
  cases out with
  | none => cases called
  | some bytes =>
    obtain ⟨⟨result, k1⟩, created, same⟩ := Option.map_eq_some_iff.mp called
    cases result with
    | error e => cases same
    | ok _ =>
      cases same
      exact ⟨bytes, exact, created⟩

theorem context_rip (typ : ProcType) : (Context.initial typ).rip = 0x200000 := by
  cases typ <;> rfl

theorem context_privilege (image : Image) :
    (Context.initial image.procType).cs % 4 = if image.coreDrv then 0 else 3 := by
  unfold Image.procType
  split <;> rfl

/-- A process can start any code it has in its memory, in ring 0 if it likes. After
a call that creates a process from whole pages of the caller, the new process is
the last in its queue and finds the caller's bytes where its sections lie, and the
privilege it starts with is the one that the bytes ask for. -/
theorem create_call_runs_callers_code (mapper : PageMapper) (parse : List UInt8 → Option Image) (overflow : Overflow)
    {map : MemoryMap} {start k k' : Kernel} {tables : Set Nat} {userTable : Nat} {args : SyscallArgs}
    (boot : start.Boot map) (calls : CallReach mapper parse overflow start k tables)
    (aligned : args.arg3.toNat % 4096 = 0) (whole : args.arg4.toNat % 4096 = 0)
    (fits : args.arg3.toNat + args.arg4.toNat ≤ 2 ^ 64) (creates : args.arg1 = 1)
    (run : k.syscall mapper parse overflow userTable 0 args = some (.returns 0 k')) :
    ∃ bytes image id, UserCopy.Exact k.mem (userTable / 4096) args.arg3.toNat args.arg4.toNat (some bytes) ∧
      parse bytes = some image ∧ k'.sched.queue image.procType = k.sched.queue image.procType ++ [id] ∧
      (k'.sched.slot image.procType id).context.rip = 0x200000 ∧
      (k'.sched.slot image.procType id).context.cs % 4 = (if image.coreDrv then 0 else 3) ∧
      ((∀ sec ∈ image.sections, sec.loadable = true → sec.size ≤ 4096) →
        ∀ before sec after, image.sections.filter Section.loadable = before ++ sec :: after → ∀ x, x < sec.size →
          readByte k'.mem ((k'.sched.slot image.procType id).tableAddr / 4096) (0x200000 + pageCount before * 4096 + x) =
            UserCopy.userByte k.mem (userTable / 4096) (args.arg3.toNat + (sec.base + x))) := by
  obtain ⟨R, valid, _⟩ := (calls.reach boot).valid mapper parse boot
  obtain ⟨bytes, exact, created⟩ := createCall_copies aligned whole fits creates run
  obtain ⟨image, root, id, infos, stackBase, parsed, spawned⟩ :=
    (create_wp mapper parse bytes (args.arg2.toNat % 256) valid.stage).ok created
  have slot := spawned.created.slot
  refine ⟨bytes, image, id, exact, parsed, spawned.created.queue, ?_, ?_, fun small before sec after split x inside => ?_⟩
  · rw [slot]
    exact context_rip image.procType
  · rw [slot]
    exact context_privilege image
  · have single (sec : Section) (member : sec ∈ image.sections.filter Section.loadable) : sec.pages ≤ 1 := by
      obtain ⟨member, loadable⟩ := List.mem_filter.mp member
      exact (pages_le_one_iff sec).mpr (small sec member loadable)
    obtain ⟨_, info, _, _, _, _, _, loaded⟩ := spawned.placed.section_at split
    have within := loaded.inside
    have length : bytes.length = args.arg4.toNat := exact.1
    have table : (k'.sched.slot image.procType id).tableAddr / 4096 = root := by
      rw [slot]
      exact Nat.mul_div_cancel root (by decide)
    rw [table, (spawned.placed.laid single).bytes before sec after split x inside, exact.2 _ (by omega)]

/-- An executable of whole pages is a driver here, and any other is a process. -/
def pageParse (data : List UInt8) : Option Image :=
  some ⟨true, data.length % 4096 == 0, [⟨0, data.length, true, true⟩]⟩

/-- A process in ring 3 passes its own page of code, and the code runs in ring 0. -/
theorem create_call_raises_privilege :
    ∃ k k' tables, CallReach FourLevel.mapper pageParse .panics smallKernel k tables ∧
      k.syscall FourLevel.mapper pageParse .panics (0x1e02 * 4096) 0 ⟨1, 0, 0x200000, 4096, 0⟩ = some (.returns 0 k') ∧
      (k.sched.slot .normal 0).context.cs % 4 = 3 ∧ ∃ id, k'.sched.queue .driver = k.sched.queue .driver ++ [id] ∧
        (k'.sched.slot .driver id).context.cs % 4 = 0 := by
  have run : ((smallKernel.step FourLevel.mapper pageParse (.create [0x90] 0)).bind fun k1 =>
      (k1.syscall FourLevel.mapper pageParse .panics (0x1e02 * 4096) 0 ⟨1, 0, 0x200000, 4096, 0⟩).bind fun out =>
        match out with
        | .returns result _ => some ((k1.sched.slot .normal 0).context.cs % 4, result)
        | .off _ => none) = some (3, 0) := by
    decide +kernel
  obtain ⟨k1, first, run⟩ := Option.bind_eq_some_iff.mp run
  obtain ⟨out, second, run⟩ := Option.bind_eq_some_iff.mp run
  cases out with
  | off _ => cases run
  | returns result k2 =>
    simp only [Option.some.injEq, Prod.mk.injEq] at run
    obtain ⟨ring, rfl⟩ := run
    have calls : CallReach FourLevel.mapper pageParse .panics smallKernel k1 (∅ ∪ k1.tables) :=
      .started (Reach.boot.next (by exact trivial) first)
    obtain ⟨bytes, image, id, ⟨length, _⟩, parsed, queue, _, privilege, _⟩ :=
      create_call_runs_callers_code FourLevel.mapper pageParse .panics smallKernel_boot calls
        (by decide) (by decide) (by decide)
        rfl second
    have driver : image.coreDrv = true := by
      cases Option.some.inj parsed
      dsimp only at length ⊢
      rw [length]
      decide
    rw [Image.procType, if_pos driver] at queue privilege
    rw [if_pos driver] at privilege
    exact ⟨k1, k2, _, calls, second, ring, id, queue, privilege⟩

end Kernel

end ProkaKernel
