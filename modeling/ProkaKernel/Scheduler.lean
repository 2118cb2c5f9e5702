import ProkaKernel.Process

namespace ProkaKernel

/-- What `switch_task` finds at a timer interrupt: the interrupt frame, CR3,
and the words pushed on entry, the k-th word below the frame pointer being
`stackBase k`. -/
structure Trap where
  rip : Nat
  rsp : Nat
  cs : Nat
  ss : Nat
  rflags : Nat
  stackBase : Nat → Nat
  cr3 : Nat

/-- The register block that both branches of `switch_task` store. -/
def Trap.saved (trap : Trap) : Context where
  rbp := trap.stackBase 0
  r15 := trap.stackBase 1
  r14 := trap.stackBase 2
  r13 := trap.stackBase 3
  r12 := trap.stackBase 4
  r11 := trap.stackBase 5
  r10 := trap.stackBase 6
  r9 := trap.stackBase 7
  r8 := trap.stackBase 8
  rdi := trap.stackBase 9
  rsi := trap.stackBase 10
  rdx := trap.stackBase 11
  rcx := trap.stackBase 12
  rbx := trap.stackBase 13
  rax := trap.stackBase 14
  rip := trap.rip
  rsp := trap.rsp
  rflags := trap.rflags
  cs := trap.cs
  ss := trap.ss

/-- The assumed layout of the entry code: the general registers of the
interrupted task in the order in which `switch_task` reads them back. -/
def pushed (regs : Context) : Nat → Nat
  | 0 => regs.rbp
  | 1 => regs.r15
  | 2 => regs.r14
  | 3 => regs.r13
  | 4 => regs.r12
  | 5 => regs.r11
  | 6 => regs.r10
  | 7 => regs.r9
  | 8 => regs.r8
  | 9 => regs.rdi
  | 10 => regs.rsi
  | 11 => regs.rdx
  | 12 => regs.rcx
  | 13 => regs.rbx
  | 14 => regs.rax
  | _ => 0

def Trap.interrupting (regs : Context) (cr3 : Nat) : Trap where
  rip := regs.rip
  rsp := regs.rsp
  cs := regs.cs
  ss := regs.ss
  rflags := regs.rflags
  stackBase := pushed regs
  cr3 := cr3

@[simp] theorem Trap.interrupting_saved (regs : Context) (cr3 : Nat) :
    (Trap.interrupting regs cr3).saved = regs := rfl

@[simp] theorem Trap.interrupting_cr3 (regs : Context) (cr3 : Nat) :
    (Trap.interrupting regs cr3).cr3 = cr3 := rfl

/-- Result of `to_driver` and `to_normal`; an empty queue is an index panic. -/
inductive Pick
  | panicked
  | err
  | ok (s : Sched) (context : Context) (table : Nat)

/-- How `switch_task` ends: it returns to the interrupted code with `cr3` in
force, or it loads the registers and the CR3 of another task. -/
inductive Switch
  | panicked
  | returned (s : Sched) (cr3 : Nat)
  | loaded (s : Sched) (context : Context) (cr3 : Nat)

/-- Common body of `to_driver` and `to_normal`. -/
def pick (s : Sched) (typ : ProcType) : Pick :=
  match s.queue typ with
  | [] => .panicked
  | id :: rest =>
    if id < maxPs then
      if (s.slot typ id).present then
        .ok ({ s with currentId := id }.withQueue (rest ++ [id]) typ)
          (s.slot typ id).context (s.slot typ id).resumeTable
      else .err
    else .err

def toDriver (s : Sched) : Pick := pick s .driver

def toNormal (s : Sched) : Pick := pick s .normal

/-- The save into a slot. Only a normal process records the interrupted CR3. -/
def Sched.save (s : Sched) (id : Nat) (trap : Trap) : ProcType → Sched
  | .normal => { s with
      normalProcess := Function.update s.normalProcess id
        { s.normalProcess id with context := trap.saved, currentTable := trap.cr3 } }
  | .driver => { s with
      driverProcess := Function.update s.driverProcess id
        { s.driverProcess id with context := trap.saved } }

/-- A tick up to the call of `to_driver` or `to_normal`. -/
inductive Prepared
  | ends (out : Switch)
  | picks (s : Sched)

/-- The branch of `switch_task` that runs class `next`: flip `IS_DRIVER` if
the other class has work, give up if `next` has none, else save into the slot
of the other class that `CURRENT_ID` names. -/
def prepare (s : Sched) (trap : Trap) (next : ProcType) : Prepared :=
  let flipped :=
    if (s.queue next.other).isEmpty then s else { s with isDriver := decide (next = .normal) }
  if s.currentId < maxPs then
    if (s.queue next).isEmpty then
      let cr3 := (s.slot next.other s.currentId).tableAddr
      .ends (.returned flipped (if cr3 = 0 then kernelPml4 else cr3))
    else .picks (flipped.save s.currentId trap next.other)
  else .ends .panicked

def finish (s : Sched) : Pick → Switch
  | .panicked => .panicked
  | .err => .returned s kernelPml4
  | .ok s' context table => .loaded s' context table

def switchClass (s : Sched) (trap : Trap) (next : ProcType) (choose : Sched → Pick) : Switch :=
  match prepare s trap next with
  | .ends out => out
  | .picks saved => finish saved (choose saved)

def switchTask (s : Sched) (trap : Trap) : Switch :=
  if s.normalQueue.isEmpty && s.driverQueue.isEmpty then .returned s kernelPml4
  else if s.isDriver then switchClass s trap .driver toDriver
  else switchClass s trap .normal toNormal

/-- The class that `switch_task` turns to: `IS_DRIVER` names the next one. -/
def Sched.next (s : Sched) : ProcType :=
  if s.isDriver then .driver else .normal

/-- What can happen to the scheduler: a process is created on a page table or
removed, or the timer interrupts whatever is running. -/
inductive Event
  | createNormal (frame priority : Nat)
  | createDriver (frame : Nat)
  | remove (typ : ProcType) (index : Nat)
  | tick (regs : Context) (cr3 : Nat)

/-- One event; `None` is a panic, which ends the run. -/
def step (s : Sched) : Event → Option Sched
  | .createNormal frame priority => createNormal s frame priority
  | .createDriver frame => createDriver s frame
  | .remove typ index =>
    match remove s typ index with
    | .ok s' => some s'
    | .error _ => some s
  | .tick regs cr3 =>
    match switchTask s (.interrupting regs cr3) with
    | .panicked => none
    | .returned s' _ => some s'
    | .loaded s' _ _ => some s'

/-- The scheduler states of all runs from boot. -/
inductive SchedReach : Sched → Prop
  | boot : SchedReach {}
  | next {s s' event} : SchedReach s → step s event = some s' → SchedReach s'

/-- A whole list of events. -/
def run (s : Sched) : List Event → Option Sched
  | [] => some s
  | event :: events => (step s event).bind (run · events)

theorem SchedReach.run {s s' : Sched} {events : List Event} (reach : SchedReach s)
    (ran : run s events = some s') : SchedReach s' := by
  induction events generalizing s with
  | nil => cases Option.some.inj ran; exact reach
  | cons event events ih =>
    obtain ⟨middle, first, rest⟩ := Option.bind_eq_some_iff.mp ran
    exact ih (reach.next first) rest

end ProkaKernel
