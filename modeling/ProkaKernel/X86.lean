import Mathlib.Logic.Function.Basic
import ProkaKernel.PhysMem

namespace X86

/-- The general registers. -/
inductive Reg
  | rax | rbx | rcx | rdx | rsi | rdi | rbp | rsp | r8 | r9 | r10 | r11 | r12 | r13 | r14 | r15
  deriving DecidableEq

/-- The translation of addresses by the tables of each CR3. No page is smaller
than 4096 bytes. -/
structure Mmu where
  phys : (cr3 addr : UInt64) → Option Nat
  offset : ∀ {cr3 addr p}, phys cr3 addr = some p → p % 4096 = addr.toNat % 4096

namespace Mmu
variable (mmu : Mmu) (cr3 : UInt64)

/-- The little-endian number in the `n` bytes at an address. -/
def read (m : Mem) (a : UInt64) : Nat → Option Nat
  | 0 => some 0
  | n + 1 => do
    let p ← mmu.phys cr3 a
    let rest ← read m (a + 1) n
    some ((m p).toNat + 256 * rest)

def write (m : Mem) (a : UInt64) (value : Nat) : Nat → Option Mem
  | 0 => some m
  | n + 1 => do
    let p ← mmu.phys cr3 a
    write (m.store p 1 value) (a + 1) (value / 256) n

/-- The words of eight bytes from an address on. -/
def Words (m : Mem) : UInt64 → List UInt64 → Prop
  | _, [] => True
  | a, v :: vs => mmu.read cr3 m a 8 = some v.toNat ∧ Words m (a + 8) vs

section
variable {mmu cr3} {m m' : Mem} {a b : UInt64} {n value p : Nat}

theorem add_one_add (a : UInt64) (i : Nat) : a + 1 + UInt64.ofNat i = a + UInt64.ofNat (i + 1) := by
  rw [UInt64.ofNat_add, UInt64.add_assoc, UInt64.add_comm 1]
  rfl

theorem offset_add {i : Nat} (found : mmu.phys cr3 (a + UInt64.ofNat i) = some p) : p % 4096 = (a.toNat + i) % 4096 := by
  rw [mmu.offset found, UInt64.toNat_add, UInt64.toNat_ofNat']
  omega

theorem read_congr (same : ∀ i < n, ∀ p, mmu.phys cr3 (a + UInt64.ofNat i) = some p → m' p = m p) :
    mmu.read cr3 m' a n = mmu.read cr3 m a n := by
  induction n generalizing a with
  | zero => rfl
  | succ n ih =>
    have rest : mmu.read cr3 m' (a + 1) n = mmu.read cr3 m (a + 1) n :=
      ih fun i bound p found => same (i + 1) (by omega) p (add_one_add a i ▸ found)
    cases found : mmu.phys cr3 a with
    | none => simp [read, found]
    | some p =>
      have first : m' p = m p := same 0 (by omega) p (by simpa using found)
      simp [read, found, first, rest]

theorem write_of_ne {x : Nat} (run : mmu.write cr3 m a value n = some m')
    (apart : ∀ i < n, mmu.phys cr3 (a + UInt64.ofNat i) ≠ some x) : m' x = m x := by
  induction n generalizing m a value with
  | zero => rw [← Option.some.inj run]
  | succ n ih =>
    obtain ⟨p, found, rest⟩ := Option.bind_eq_some_iff.mp run
    have other : p ≠ x := by
      rintro rfl
      exact apart 0 (by omega) (by simpa using found)
    rw [ih rest fun i bound => add_one_add a i ▸ apart (i + 1) (by omega)]
    exact if_neg (by omega)

theorem read_write (run : mmu.write cr3 m a value n = some m') (bound : n ≤ 4096) :
    mmu.read cr3 m' a n = some (value % 256 ^ n) := by
  induction n generalizing m a value with
  | zero => simp [read, Nat.mod_one]
  | succ n ih =>
    obtain ⟨p, found, rest⟩ := Option.bind_eq_some_iff.mp run
    have kept : m' p = m.store p 1 value p := by
      refine write_of_ne rest fun i bound again => ?_
      have first := mmu.offset found
      have later := offset_add again
      rw [UInt64.toNat_add, UInt64.toNat_one] at later
      omega
    have first : (m' p).toNat = value % 256 := by
      rw [kept, Mem.store, if_pos (by omega), Nat.sub_self, Nat.pow_zero, Nat.div_one, UInt8.toNat_ofNat']
    simp only [read, found, ih rest (by omega), Option.bind_eq_bind, Option.bind_some, first, Nat.pow_succ', Nat.mod_mul]

theorem write_isSome (mapped : ∀ i < n, (mmu.phys cr3 (a + UInt64.ofNat i)).isSome) :
    ∃ m', mmu.write cr3 m a value n = some m' := by
  induction n generalizing m a value with
  | zero => exact ⟨m, rfl⟩
  | succ n ih =>
    obtain ⟨p, found⟩ := Option.isSome_iff_exists.mp (mapped 0 (by omega))
    obtain ⟨m', run⟩ := @ih (m.store p 1 value) (a + 1) (value / 256) fun i bound =>
      add_one_add a i ▸ mapped (i + 1) (by omega)
    have first : mmu.phys cr3 a = some p := by simpa using found
    exact ⟨m', by simp [write, first, run]⟩

theorem Words.congr {vs : List UInt64} (words : mmu.Words cr3 m a vs)
    (same : ∀ i < 8 * vs.length, ∀ p, mmu.phys cr3 (a + UInt64.ofNat i) = some p → m' p = m p) :
    mmu.Words cr3 m' a vs := by
  induction vs generalizing a with
  | nil => trivial
  | cons v vs ih =>
    rw [List.length_cons] at same
    refine ⟨(read_congr fun i bound => same i (by omega)).trans words.1, ih words.2 fun i bound p found => ?_⟩
    refine same (8 + i) (by omega) p ?_
    rw [UInt64.ofNat_add, ← UInt64.add_assoc]
    exact found

end

end Mmu

/-- A processor in ring 0, with the memory and the tables that it works on. -/
structure Cpu where
  regs : Reg → UInt64
  cr3 : UInt64
  mem : Mem
  mmu : Mmu

namespace Cpu

def set (c : Cpu) (r : Reg) (value : UInt64) : Cpu := { c with regs := Function.update c.regs r value }

/-- The push of a value; `none` is a page fault. -/
def push (c : Cpu) (value : UInt64) : Option Cpu :=
  (c.mmu.write c.cr3 c.mem (c.regs .rsp - 8) value.toNat 8).map fun m => { c.set .rsp (c.regs .rsp - 8) with mem := m }

def pop (c : Cpu) (r : Reg) : Option Cpu :=
  (c.mmu.read c.cr3 c.mem (c.regs .rsp) 8).map fun value => (c.set .rsp (c.regs .rsp + 8)).set r (.ofNat value)

/-- The first five arguments of a function. -/
def arguments (c : Cpu) : List UInt64 := [c.regs .rdi, c.regs .rsi, c.regs .rdx, c.regs .rcx, c.regs .r8]

end Cpu

inductive Instr
  | push (r : Reg)
  | pop (r : Reg)
  | mov (dst src : Reg)
  | movImm (dst : Reg) (value : UInt64)
  | readCr3 (dst : Reg)
  | writeCr3 (src : Reg)
  | call
  | sysretq
  deriving DecidableEq

/-- One instruction that neither calls nor returns. -/
def Instr.run : Instr → Cpu → Option Cpu
  | push r, c => c.push (c.regs r)
  | pop r, c => c.pop r
  | mov dst src, c => some (c.set dst (c.regs src))
  | movImm dst value, c => some (c.set dst value)
  | readCr3 dst, c => some (c.set dst c.cr3)
  | writeCr3 src, c => some { c with cr3 := c.regs src }
  | call, _ => none
  | sysretq, _ => none

/-- Runs of a block up to its `sysretq`, with the states on which the called
function was entered. The function is a relation from its entry to its return,
and `next` the address behind the call. -/
inductive Exec (callee : Cpu → Cpu → Prop) (next : UInt64) : List Instr → Cpu → List Cpu → Cpu → Prop
  | stop {rest c} : Exec callee next (.sysretq :: rest) c [] c
  | step {i rest c c' calls final} : i.run c = some c' → Exec callee next rest c' calls final →
      Exec callee next (i :: rest) c calls final
  | call {rest c entered returned calls final} : c.push next = some entered → callee entered returned →
      Exec callee next rest returned calls final → Exec callee next (.call :: rest) c (entered :: calls) final

/-- What a function keeps by the System V ABI: registers, and the `size` words of
its caller's frame, which lie behind the return address. -/
structure SysV (size : Nat) (c c' : Cpu) : Prop where
  regs : ∀ r ∈ [Reg.rbx, .rbp, .r12, .r13, .r14, .r15], c'.regs r = c.regs r
  rsp : c'.regs .rsp = c.regs .rsp + 8
  frame : ∀ vs : List UInt64, vs.length = size → c.mmu.Words c.cr3 c.mem (c.regs .rsp + 8) vs →
    c'.mmu.Words c'.cr3 c'.mem (c.regs .rsp + 8) vs

/-- A straight block. -/
def runAll : List Instr → Cpu → Option Cpu
  | [], c => some c
  | i :: rest, c => (i.run c).bind (runAll rest)

section
variable {callee : Cpu → Cpu → Prop} {next : UInt64} {block rest : List Instr} {c c' final : Cpu} {calls : List Cpu}

theorem Exec.straight (straight : .call ∉ block ∧ .sysretq ∉ block) (exec : Exec callee next (block ++ rest) c calls final) :
    ∃ c', runAll block c = some c' ∧ Exec callee next rest c' calls final := by
  induction block generalizing c with
  | nil => exact ⟨c, rfl, exec⟩
  | cons i block ih =>
    simp only [List.mem_cons, not_or] at straight
    cases exec with
    | stop => exact absurd rfl straight.2.1
    | call => exact absurd rfl straight.1.1
    | step first exec =>
      obtain ⟨c', run, later⟩ := ih ⟨straight.1.2, straight.2.2⟩ exec
      exact ⟨c', Option.bind_eq_some_iff.mpr ⟨_, first, run⟩, later⟩

theorem Exec.of_straight (run : runAll block c = some c') (exec : Exec callee next rest c' calls final) :
    Exec callee next (block ++ rest) c calls final := by
  induction block generalizing c with
  | nil =>
    cases run
    exact exec
  | cons i block ih =>
    obtain ⟨c1, first, run⟩ := Option.bind_eq_some_iff.mp run
    exact .step first (ih run)

end

/-- A stack machine: the registers, and the words from the stack pointer on. -/
structure Stacked where
  regs : Reg → UInt64
  stack : List UInt64

/-- The instructions that leave the stack in one place. -/
def Instr.stacked : Instr → Stacked → Option Stacked
  | push r, s => some ⟨Function.update s.regs .rsp (s.regs .rsp - 8), s.regs r :: s.stack⟩
  | pop r, s =>
    match s.stack with
    | [] => none
    | v :: rest =>
      if r = .rsp ∧ v ≠ s.regs .rsp + 8 then none
      else some ⟨Function.update (Function.update s.regs .rsp (s.regs .rsp + 8)) r v, rest⟩
  | mov dst src, s => if dst = .rsp then none else some { s with regs := Function.update s.regs dst (s.regs src) }
  | _, _ => none

def stackedAll : List Instr → Stacked → Option Stacked
  | [], s => some s
  | i :: rest, s => (i.stacked s).bind (stackedAll rest)

section
variable {r : Reg} {regs : Reg → UInt64} {a v : UInt64} {rest : List UInt64} {block : List Instr}

theorem stackedAll_pop (other : r ≠ .rsp) : stackedAll (.pop r :: block) ⟨Function.update regs .rsp a, v :: rest⟩ =
    stackedAll block ⟨Function.update (Function.update regs r v) .rsp (a + 8), rest⟩ := by
  have next : Instr.stacked (.pop r) ⟨Function.update regs .rsp a, v :: rest⟩ =
      some ⟨Function.update (Function.update regs r v) .rsp (a + 8), rest⟩ := by
    simp only [Instr.stacked, other, false_and, if_false, Function.update_self, Function.update_idem]
    rw [Function.update_comm other]
  rw [stackedAll, next, Option.bind_some]

/-- The stack pointer is popped where it points behind itself. -/
theorem stackedAll_pop_rsp : stackedAll (.pop .rsp :: block) ⟨Function.update regs .rsp a, (a + 8) :: rest⟩ =
    stackedAll block ⟨Function.update regs .rsp (a + 8), rest⟩ := by
  have next : Instr.stacked (.pop .rsp) ⟨Function.update regs .rsp a, (a + 8) :: rest⟩ =
      some ⟨Function.update regs .rsp (a + 8), rest⟩ := by
    simp only [Instr.stacked, Function.update_self, Function.update_idem, ne_eq, not_true, and_false, if_false]
  rw [stackedAll, next, Option.bind_some]

end

/-- The processor has the registers and the stack of the stack machine. -/
structure Cpu.Matches (c : Cpu) (s : Stacked) : Prop where
  regs : c.regs = s.regs
  words : c.mmu.Words c.cr3 c.mem (s.regs .rsp) s.stack

/-- The tables are the same. -/
structure Cpu.SameTables (c c' : Cpu) : Prop where
  cr3 : c'.cr3 = c.cr3
  mmu : c'.mmu = c.mmu

section
variable {c c' : Cpu} {s s' : Stacked} {i : Instr} {value : UInt64} {vs : List UInt64}

theorem Cpu.push_eq (run : c.push value = some c') :
    ∃ m, c.mmu.write c.cr3 c.mem (c.regs .rsp - 8) value.toNat 8 = some m ∧
      c' = { c.set .rsp (c.regs .rsp - 8) with mem := m } := by
  obtain ⟨m, written, rfl⟩ := Option.map_eq_some_iff.mp run
  exact ⟨m, written, rfl⟩

theorem Cpu.push_regs (run : c.push value = some c') :
    c'.regs = Function.update c.regs .rsp (c.regs .rsp - 8) ∧ c.SameTables c' := by
  obtain ⟨m, _, rfl⟩ := push_eq run
  exact ⟨rfl, rfl, rfl⟩

/-- A push puts a word in front of those that are there. -/
theorem Cpu.push_words (run : c.push value = some c') (words : c.mmu.Words c.cr3 c.mem (c.regs .rsp) vs)
    (short : vs.length < 511) : c'.mmu.Words c'.cr3 c'.mem (c'.regs .rsp) (value :: vs) := by
  obtain ⟨m, written, rfl⟩ := push_eq run
  have top : (Function.update c.regs .rsp (c.regs .rsp - 8)) .rsp = c.regs .rsp - 8 := Function.update_self ..
  change c.mmu.Words c.cr3 m (Function.update c.regs .rsp (c.regs .rsp - 8) .rsp) (value :: vs)
  rw [top]
  refine ⟨?_, ?_⟩
  · rw [Mmu.read_write written (by decide)]
    exact congrArg some (Nat.mod_eq_of_lt value.toNat_lt)
  · rw [UInt64.sub_add_cancel]
    refine words.congr fun i bound p found => Mmu.write_of_ne written fun j below again => ?_
    have first := Mmu.offset_add found
    have second := Mmu.offset_add again
    rw [UInt64.toNat_sub] at second
    change p % 4096 = ((2 ^ 64 - 8 + (c.regs .rsp).toNat) % 2 ^ 64 + j) % 4096 at second
    omega

theorem Cpu.pop_word (read : c.mmu.read c.cr3 c.mem (c.regs .rsp) 8 = some value.toNat) (r : Reg) :
    c.pop r = some ((c.set .rsp (c.regs .rsp + 8)).set r value) := by
  rw [Cpu.pop, read, Option.map_some, UInt64.ofNat_toNat]

/-- All that an instruction does on the stack machine. -/
theorem Instr.stacked_cases (step : i.stacked s = some s') :
    (∃ r, i = .push r ∧ s' = ⟨Function.update s.regs .rsp (s.regs .rsp - 8), s.regs r :: s.stack⟩) ∨
    (∃ r v rest, i = .pop r ∧ s.stack = v :: rest ∧ (r = .rsp → v = s.regs .rsp + 8) ∧
      s' = ⟨Function.update (Function.update s.regs .rsp (s.regs .rsp + 8)) r v, rest⟩) ∨
    ∃ dst src, i = .mov dst src ∧ dst ≠ .rsp ∧ s' = { s with regs := Function.update s.regs dst (s.regs src) } := by
  cases i with
  | push r =>
    cases step
    exact .inl ⟨r, rfl, rfl⟩
  | pop r =>
    simp only [stacked] at step
    split at step
    · cases step
    · rename_i v rest stack
      split at step
      · cases step
      · rename_i back
        cases step
        exact .inr (.inl ⟨r, v, rest, rfl, stack, fun top => not_not.mp fun other => back ⟨top, other⟩, rfl⟩)
  | mov dst src =>
    simp only [stacked] at step
    split at step
    · cases step
    · rename_i other
      cases step
      exact .inr (.inr ⟨dst, src, rfl, other, rfl⟩)
  | movImm dst v => cases step
  | readCr3 dst => cases step
  | writeCr3 src => cases step
  | call => cases step
  | sysretq => cases step

theorem Instr.stacked_length (step : i.stacked s = some s') : s'.stack.length ≤ s.stack.length + 1 := by
  rcases stacked_cases step with ⟨r, _, rfl⟩ | ⟨r, v, rest, _, stack, _, rfl⟩ | ⟨dst, src, _, _, rfl⟩
  · exact Nat.le_refl _
  · rw [stack, List.length_cons]
    dsimp only
    omega
  · exact Nat.le_succ _

/-- The processor follows the stack machine. -/
theorem Cpu.Matches.step (before : c.Matches s) (short : s.stack.length < 511) (step : i.stacked s = some s')
    (run : i.run c = some c') : c'.Matches s' ∧ c.SameTables c' := by
  obtain ⟨regs, stack⟩ := s
  obtain ⟨rfl, words⟩ := before
  rcases Instr.stacked_cases step with ⟨r, rfl, rfl⟩ | ⟨r, v, rest, rfl, stacked, back, rfl⟩ | ⟨dst, src, rfl, other, rfl⟩
  · have after := push_words run words short
    obtain ⟨m, _, rfl⟩ := push_eq run
    exact ⟨⟨rfl, after⟩, rfl, rfl⟩
  · cases stacked
    cases (pop_word words.1 r).symm.trans run
    have top : Function.update (Function.update c.regs .rsp (c.regs .rsp + 8)) r v .rsp = c.regs .rsp + 8 := by
      by_cases same : r = .rsp
      · rw [same, Function.update_self, back same]
      · rw [Function.update_of_ne (Ne.symm same), Function.update_self]
    refine ⟨⟨rfl, ?_⟩, rfl, rfl⟩
    dsimp only
    rw [top]
    exact words.2
  · cases run
    refine ⟨⟨rfl, ?_⟩, rfl, rfl⟩
    dsimp only
    rw [Function.update_of_ne (Ne.symm other)]
    exact words

theorem Cpu.SameTables.trans {c'' : Cpu} (first : c.SameTables c') (second : c'.SameTables c'') : c.SameTables c'' :=
  ⟨second.cr3.trans first.cr3, second.mmu.trans first.mmu⟩

theorem Cpu.Matches.all {block : List Instr} (before : c.Matches s) (short : s.stack.length + block.length ≤ 511)
    (steps : stackedAll block s = some s') (run : runAll block c = some c') : c'.Matches s' ∧ c.SameTables c' := by
  induction block generalizing c s with
  | nil =>
    cases steps
    cases run
    exact ⟨before, rfl, rfl⟩
  | cons i block ih =>
    rw [List.length_cons] at short
    obtain ⟨s1, first, steps⟩ := Option.bind_eq_some_iff.mp steps
    obtain ⟨c1, ran, run⟩ := Option.bind_eq_some_iff.mp run
    obtain ⟨between, tables⟩ := before.step (by omega) first ran
    have longer := Instr.stacked_length first
    obtain ⟨after, later⟩ := ih between (by omega) steps run
    exact ⟨after, tables.trans later⟩

/-- Below the stack pointer there is room for `n` words. -/
def Cpu.Room (c : Cpu) (n : Nat) : Prop :=
  ∀ k < 8 * n, (c.mmu.phys c.cr3 (c.regs .rsp - UInt64.ofNat (8 * n) + UInt64.ofNat k)).isSome

theorem Cpu.Room.push {n : Nat} (room : c.Room (n + 1)) (value : UInt64) : ∃ c', c.push value = some c' ∧ c'.Room n := by
  have word : ∀ k < 8, (c.mmu.phys c.cr3 (c.regs .rsp - 8 + UInt64.ofNat k)).isSome := by
    intro k bound
    have same : c.regs .rsp - 8 + UInt64.ofNat k =
        c.regs .rsp - UInt64.ofNat (8 * (n + 1)) + UInt64.ofNat (8 * n + k) := by
      rw [Nat.mul_succ, UInt64.ofNat_add, UInt64.ofNat_add]
      grind
    rw [same]
    exact room (8 * n + k) (by omega)
  obtain ⟨m, written⟩ := Mmu.write_isSome word
  refine ⟨_, Option.map_eq_some_iff.mpr ⟨m, written, rfl⟩, fun k bound => ?_⟩
  have same : c.regs .rsp - 8 - UInt64.ofNat (8 * n) = c.regs .rsp - UInt64.ofNat (8 * (n + 1)) := by
    rw [Nat.mul_succ, UInt64.ofNat_add]
    grind
  change (c.mmu.phys c.cr3 (Function.update c.regs .rsp (c.regs .rsp - 8) .rsp - _ + _)).isSome
  rw [Function.update_self, same]
  exact room k (by omega)

/-- A push changes the eight bytes to which the stack pointer then points. -/
theorem Cpu.push_of_ne {x : Nat} (run : c.push value = some c')
    (apart : ∀ k < 8, c'.mmu.phys c'.cr3 (c'.regs .rsp + UInt64.ofNat k) ≠ some x) : c'.mem x = c.mem x := by
  obtain ⟨m, written, rfl⟩ := push_eq run
  refine Mmu.write_of_ne written fun k bound => ?_
  rw [← Function.update_self Reg.rsp (c.regs .rsp - 8) c.regs]
  exact apart k bound

/-- The instructions of a block that saves registers. -/
def Instr.saves : Instr → Bool
  | push _ => true
  | mov dst _ => dst ≠ .rsp
  | _ => false

/-- The number of words that a block pushes. -/
def pushes : List Instr → Nat
  | [] => 0
  | .push _ :: rest => pushes rest + 1
  | _ :: rest => pushes rest

theorem Cpu.Room.runs {block : List Instr} (saves : ∀ i ∈ block, i.saves = true) (room : c.Room (pushes block)) :
    ∃ c', runAll block c = some c' := by
  induction block generalizing c with
  | nil => exact ⟨c, rfl⟩
  | cons i block ih =>
    have later : ∀ i ∈ block, i.saves = true := fun i member => saves i (List.mem_cons_of_mem _ member)
    have first := saves i (List.mem_cons_self ..)
    cases i with
    | push r =>
      obtain ⟨c1, run, room1⟩ := room.push (c.regs r)
      obtain ⟨c', rest⟩ := ih later room1
      exact ⟨c', Option.bind_eq_some_iff.mpr ⟨c1, run, rest⟩⟩
    | mov dst src =>
      refine ih later fun k bound => ?_
      have top : (c.set dst (c.regs src)).regs .rsp = c.regs .rsp :=
        Function.update_of_ne (Ne.symm (of_decide_eq_true first)) ..
      rw [top]
      exact room k bound
    | pop r => cases first
    | movImm dst v => cases first
    | readCr3 dst => cases first
    | writeCr3 src => cases first
    | call => cases first
    | sysretq => cases first

/-- Words that are there can be popped. -/
theorem Cpu.Matches.pops {rs : List Reg} (before : c.Matches s) (short : s.stack.length < 511)
    (steps : stackedAll (rs.map .pop) s = some s') : ∃ c', runAll (rs.map .pop) c = some c' := by
  induction rs generalizing c s with
  | nil => exact ⟨c, rfl⟩
  | cons r rs ih =>
    obtain ⟨s1, first, others⟩ := Option.bind_eq_some_iff.mp steps
    rcases Instr.stacked_cases first with ⟨_, push, _⟩ | ⟨_, v, rest, _, stack, _, after⟩ | ⟨_, _, mov, _⟩
    · cases push
    · have words := before.words
      rw [stack] at words
      have run := pop_word (before.regs ▸ words.1) r
      have shorter : s1.stack.length < 511 := by
        rw [stack] at short
        rw [after]
        exact Nat.lt_of_succ_lt short
      obtain ⟨c', later⟩ := ih (before.step short first run).1 shorter others
      exact ⟨c', Option.bind_eq_some_iff.mpr ⟨_, run, later⟩⟩
    · cases mov

end

end X86
