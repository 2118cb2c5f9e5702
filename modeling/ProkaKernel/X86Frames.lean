import ProkaKernel.X86

namespace X86

/-- The instructions of a straight block, and those with a word of memory as
their source. -/
inductive Op
  | plain (i : Instr)
  | pushWord (base : Reg) (offset : UInt64)
  | load (dst base : Reg) (offset : UInt64)
  | mfence
  deriving DecidableEq

def Cpu.word (c : Cpu) (a : UInt64) : Option UInt64 := (c.mmu.read c.cr3 c.mem a 8).map UInt64.ofNat

def Op.run : Op → Cpu → Option Cpu
  | plain i, c => i.run c
  | pushWord base offset, c => (c.word (c.regs base + offset)).bind c.push
  | load dst base offset, c => (c.word (c.regs base + offset)).map (c.set dst)
  | mfence, c => some c

def runOps : List Op → Cpu → Option Cpu
  | [], c => some c
  | op :: rest, c => (op.run c).bind (runOps rest)

theorem runOps_append (first rest : List Op) (c : Cpu) : runOps (first ++ rest) c = (runOps first c).bind (runOps rest) := by
  induction first generalizing c with
  | nil => rfl
  | cons op first ih => rw [List.cons_append, runOps, runOps, Option.bind_assoc, funext ih]

/-- The instructions of a straight block that write to memory. -/
def Instr.stores : Instr → Bool
  | push _ => true
  | _ => false

theorem runAll_memory {block : List Instr} {c c' : Cpu} (quiet : ∀ i ∈ block, i.stores = false)
    (run : runAll block c = some c') : c'.mem = c.mem ∧ c'.mmu = c.mmu := by
  induction block generalizing c with
  | nil =>
    cases run
    exact ⟨rfl, rfl⟩
  | cons i block ih =>
    obtain ⟨c1, first, run⟩ := Option.bind_eq_some_iff.mp run
    obtain ⟨mem, mmu⟩ := ih (fun i member => quiet i (List.mem_cons_of_mem _ member)) run
    have same : c1.mem = c.mem ∧ c1.mmu = c.mmu := by
      cases i with
      | push r => exact absurd (quiet _ (List.mem_cons_self ..)) (by simp [Instr.stores])
      | pop r =>
        obtain ⟨value, _, rfl⟩ := Option.map_eq_some_iff.mp first
        exact ⟨rfl, rfl⟩
      | call => cases first
      | sysretq => cases first
      | mov | movImm | readCr3 | writeCr3 =>
        cases first
        exact ⟨rfl, rfl⟩
    exact ⟨mem.trans same.1, mmu.trans same.2⟩

/-- What `iretq` takes from the stack, beside the stack pointer. -/
structure IretFrame where
  rip : UInt64
  cs : UInt64
  rflags : UInt64
  ss : UInt64

def Cpu.iretq (c : Cpu) : Option (Cpu × IretFrame) := do
  let rip ← c.word (c.regs .rsp)
  let cs ← c.word (c.regs .rsp + 8)
  let rflags ← c.word (c.regs .rsp + 16)
  let rsp ← c.word (c.regs .rsp + 24)
  let ss ← c.word (c.regs .rsp + 32)
  some (c.set .rsp rsp, ⟨rip, cs, rflags, ss⟩)

/-- The tables map the `size` bytes from `lo` on to the physical memory from
`base` on. -/
structure Mmu.Window (mmu : Mmu) (cr3 : UInt64) (lo size base : Nat) : Prop where
  phys : ∀ a : UInt64, lo ≤ a.toNat → a.toNat < lo + size → mmu.phys cr3 a = some (base + (a.toNat - lo))
  bound : lo + size < 2 ^ 64

section
variable {mmu : Mmu} {cr3 : UInt64} {lo size base n value : Nat} {m : Mem} {a : UInt64}

theorem toNat_add_one {a : UInt64} (bound : a.toNat + 1 < 2 ^ 64) : (a + 1).toNat = a.toNat + 1 := by
  rw [UInt64.toNat_add, UInt64.toNat_one, Nat.mod_eq_of_lt bound]

/-- Inside a window memory is read and written as it lies there. -/
theorem Mmu.Window.read (window : mmu.Window cr3 lo size base) (lower : lo ≤ a.toNat) (upper : a.toNat + n ≤ lo + size) :
    mmu.read cr3 m a n = some (m.load (base + (a.toNat - lo)) n) := by
  have bound := window.bound
  induction n generalizing a with
  | zero => rfl
  | succ n ih =>
    have next := @toNat_add_one a (by omega)
    have rest := @ih (a + 1) (by omega) (by omega)
    have here : base + ((a + 1).toNat - lo) = base + (a.toNat - lo) + 1 := by omega
    simp only [Mmu.read, window.phys a lower (by omega), rest, here, Mem.load, Option.bind_eq_bind, Option.bind_some]

theorem Mmu.Window.write (window : mmu.Window cr3 lo size base) (lower : lo ≤ a.toNat) (upper : a.toNat + n ≤ lo + size) :
    mmu.write cr3 m a value n = some (m.store (base + (a.toNat - lo)) n value) := by
  have bound := window.bound
  induction n generalizing a m value with
  | zero =>
    refine congrArg some (funext fun x => ?_)
    exact (if_neg (by omega)).symm
  | succ n ih =>
    have next := @toNat_add_one a (by omega)
    have rest := @ih (value / 256) (m.store (base + (a.toNat - lo)) 1 value) (a + 1) (by omega) (by omega)
    simp only [Mmu.write, window.phys a lower (by omega), Option.bind_eq_bind, Option.bind_some, rest]
    refine congrArg some (funext fun x => ?_)
    have here : base + ((a + 1).toNat - lo) = base + (a.toNat - lo) + 1 := by omega
    unfold Mem.store
    rw [here]
    by_cases first : x = base + (a.toNat - lo)
    · rw [if_neg (by omega), if_pos (by omega), if_pos (by omega)]
    · by_cases inside : base + (a.toNat - lo) ≤ x ∧ x < base + (a.toNat - lo) + (n + 1)
      · have exponent : x - (base + (a.toNat - lo)) = x - (base + (a.toNat - lo) + 1) + 1 := by omega
        rw [if_pos (by omega), if_pos inside, exponent, Nat.pow_succ', Nat.div_div_eq_div_mul]
      · rw [if_neg (by omega), if_neg (by omega), if_neg inside]

end

section
variable {c : Cpu} {lo size base n : Nat} {a value : UInt64}

theorem Cpu.word_window (window : c.mmu.Window c.cr3 lo size base) (lower : lo ≤ a.toNat)
    (upper : a.toNat + 8 ≤ lo + size) (holds : c.mem.load (base + (a.toNat - lo)) 8 = value.toNat) :
    c.word a = some value := by
  rw [Cpu.word, window.read lower upper, holds, Option.map_some, UInt64.ofNat_toNat]

theorem Cpu.push_window (window : c.mmu.Window c.cr3 lo size base) (lower : lo + 8 ≤ (c.regs .rsp).toNat)
    (upper : (c.regs .rsp).toNat ≤ lo + size) (value : UInt64) :
    c.push value = some { c.set .rsp (c.regs .rsp - 8) with
      mem := c.mem.store (base + ((c.regs .rsp).toNat - 8 - lo)) 8 value.toNat } := by
  have top : (c.regs .rsp - 8).toNat = (c.regs .rsp).toNat - 8 :=
    UInt64.toNat_sub_of_le _ _ (UInt64.le_iff_toNat_le.mpr (show 8 ≤ (c.regs .rsp).toNat by omega))
  rw [Cpu.push, window.write (by omega) (by omega), top]
  rfl

theorem Mmu.Window.words_iff {mmu : Mmu} {cr3 : UInt64} {m : Mem} {vs : List UInt64} (window : mmu.Window cr3 lo size base)
    (lower : lo ≤ a.toNat) (upper : a.toNat + 8 * vs.length ≤ lo + size) :
    mmu.Words cr3 m a vs ↔ ∀ i v, vs[i]? = some v → m.load (base + (a.toNat + 8 * i - lo)) 8 = v.toNat := by
  have bound := window.bound
  induction vs generalizing a with
  | nil =>
    refine ⟨fun _ i v listed => ?_, fun _ => trivial⟩
    cases listed
  | cons first vs ih =>
    rw [List.length_cons] at upper
    have next : (a + 8).toNat = a.toNat + 8 := by
      rw [UInt64.toNat_add]
      exact Nat.mod_eq_of_lt (by change a.toNat + 8 < 2 ^ 64; omega)
    have place (i : Nat) : (a + 8).toNat + 8 * i = a.toNat + 8 * (i + 1) := by omega
    have here := window.read (m := m) (n := 8) lower (by omega)
    have later := @ih (a + 8) (by omega) (by omega)
    simp only [place] at later
    refine ⟨fun words i v listed => ?_, fun all => ⟨here.trans (congrArg some (all 0 first rfl)), ?_⟩⟩
    · cases i with
      | zero =>
        cases Option.some.inj listed
        exact Option.some.inj (here.symm.trans words.1)
      | succ i => exact later.mp words.2 i v listed
    · exact later.mpr fun i v listed => all (i + 1) v listed

/-- A word in a window, at an address beside the `n` words below the stack
pointer. -/
structure Cpu.Source (c : Cpu) (lo size base n : Nat) (a value : UInt64) : Prop where
  lower : lo ≤ a.toNat
  upper : a.toNat + 8 ≤ lo + size
  apart : a.toNat + 8 ≤ (c.regs .rsp).toNat - 8 * n ∨ (c.regs .rsp).toNat ≤ a.toNat
  holds : c.mem.load (base + (a.toNat - lo)) 8 = value.toNat

end

/-- The processor after `n` words were pushed in a window: the last one lies at
the top of the stack. -/
structure Cpu.Pushed (lo base : Nat) (values : List UInt64) (c c' : Cpu) : Prop where
  regs : ∃ rsp, c'.regs = Function.update c.regs .rsp rsp ∧ rsp.toNat + 8 * values.length = (c.regs .rsp).toNat
  cr3 : c'.cr3 = c.cr3
  mmu : c'.mmu = c.mmu
  others : ∀ x, ¬(base + ((c.regs .rsp).toNat - 8 * values.length - lo) ≤ x ∧ x < base + ((c.regs .rsp).toNat - lo)) →
    c'.mem x = c.mem x
  words : ∀ i v, values[i]? = some v → c'.mem.load (base + ((c.regs .rsp).toNat - 8 * (i + 1) - lo)) 8 = v.toNat

section
variable {c : Cpu} {lo size base : Nat}

theorem Cpu.pushWords {r : Reg} {sources : List (UInt64 × UInt64)} (window : c.mmu.Window c.cr3 lo size base)
    (other : r ≠ .rsp) (lower : lo + 8 * sources.length ≤ (c.regs .rsp).toNat) (upper : (c.regs .rsp).toNat ≤ lo + size)
    (held : ∀ e ∈ sources, c.Source lo size base sources.length (c.regs r + e.1) e.2) :
    ∃ c', runOps (sources.map fun e => .pushWord r e.1) c = some c' ∧ Cpu.Pushed lo base (sources.map Prod.snd) c c' := by
  induction sources generalizing c with
  | nil =>
    refine ⟨c, rfl, ⟨c.regs .rsp, (Function.update_eq_self ..).symm, rfl⟩, rfl, rfl, fun _ _ => rfl, fun i v at_ => ?_⟩
    cases at_
  | cons e sources ih =>
    simp only [List.length_cons] at lower held
    have first := held e (List.mem_cons_self ..)
    have top : (c.regs .rsp - 8).toNat = (c.regs .rsp).toNat - 8 :=
      UInt64.toNat_sub_of_le _ _ (UInt64.le_iff_toNat_le.mpr (show 8 ≤ (c.regs .rsp).toNat by omega))
    have pushed := c.push_window window (by omega) upper e.2
    have run : (Op.pushWord r e.1).run c = some { c.set .rsp (c.regs .rsp - 8) with
        mem := c.mem.store (base + ((c.regs .rsp).toNat - 8 - lo)) 8 e.2.toNat } := by
      rw [Op.run, Cpu.word_window window first.lower first.upper first.holds, Option.bind_some, pushed]
    obtain ⟨c1, same⟩ : ∃ c1 : Cpu, c1 = { c.set .rsp (c.regs .rsp - 8) with
        mem := c.mem.store (base + ((c.regs .rsp).toNat - 8 - lo)) 8 e.2.toNat } := ⟨_, rfl⟩
    have regs1 : c1.regs = Function.update c.regs .rsp (c.regs .rsp - 8) := by
      rw [same]
      rfl
    have rsp1 : (c1.regs .rsp).toNat = (c.regs .rsp).toNat - 8 := by rw [regs1, Function.update_self, top]
    have base1 : c1.regs r = c.regs r := by rw [regs1, Function.update_of_ne other]
    have outside (x : Nat) (apart : ¬(base + ((c.regs .rsp).toNat - 8 - lo) ≤ x ∧ x < base + ((c.regs .rsp).toNat - lo))) :
        c1.mem x = c.mem x := by
      rw [same]
      exact if_neg (by omega)
    have later (e' : UInt64 × UInt64) (member : e' ∈ sources) :
        c1.Source lo size base sources.length (c1.regs r + e'.1) e'.2 := by
      have old := held e' (List.mem_cons_of_mem e member)
      obtain ⟨below, above, apart, holds⟩ := old
      rw [base1]
      refine ⟨below, above, by omega, Eq.trans (Mem.load_congr fun x lower' upper' => outside x ?_) holds⟩
      omega
    have mmu1 : c1.mmu = c.mmu ∧ c1.cr3 = c.cr3 := by
      rw [same]
      exact ⟨rfl, rfl⟩
    obtain ⟨c', rest, after⟩ := @ih c1 (by rw [mmu1.1, mmu1.2]; exact window) (by omega) (by omega) later
    obtain ⟨rsp, regs, count⟩ := after.regs
    refine ⟨c', ?_, ⟨rsp, ?_, ?_⟩, after.cr3.trans mmu1.2, after.mmu.trans mmu1.1, fun x apart => ?_, fun i v value => ?_⟩
    · rw [List.map_cons, runOps, run, Option.bind_some, ← same, rest]
    · rw [regs, regs1, Function.update_idem]
    · rw [List.map_cons, List.length_cons]
      omega
    · rw [List.map_cons, List.length_cons] at apart
      rw [after.others x (by omega), outside x (by omega)]
    · cases i with
      | zero =>
        cases Option.some.inj value
        have kept : c'.mem.load (base + ((c.regs .rsp).toNat - 8 - lo)) 8 =
            c1.mem.load (base + ((c.regs .rsp).toNat - 8 - lo)) 8 :=
          Mem.load_congr fun x lower' upper' => after.others x (by omega)
        rw [Nat.zero_add, Nat.mul_one, kept, same, Mem.load_store]
        exact Nat.mod_eq_of_lt e.2.toNat_lt
      | succ i =>
        have word := after.words i v value
        rw [rsp1] at word
        rw [show 8 * (i + 1 + 1) = 8 + 8 * (i + 1) by omega, ← Nat.sub_sub]
        exact word

/-- Loads through a register that is not loaded itself. -/
theorem runOps_loads {b : Reg} {rs : List Reg} {offset value : Reg → UInt64} (kept : b ∉ rs)
    (words : ∀ r ∈ rs, c.word (c.regs b + offset r) = some (value r)) :
    runOps (rs.map fun r => .load r b (offset r)) c =
      some { c with regs := fun r => if r ∈ rs then value r else c.regs r } := by
  induction rs generalizing c with
  | nil => simp [runOps]
  | cons r rs ih =>
    simp only [List.mem_cons, not_or] at kept
    have run : (Op.load r b (offset r)).run c = some (c.set r (value r)) := by
      rw [Op.run, words r (List.mem_cons_self ..), Option.map_some]
    have still : (c.set r (value r)).regs b = c.regs b := Function.update_of_ne kept.1 ..
    have later : ∀ r' ∈ rs, (c.set r (value r)).word ((c.set r (value r)).regs b + offset r') = some (value r') := by
      intro r' member
      rw [still]
      exact words r' (List.mem_cons_of_mem r member)
    rw [List.map_cons, runOps, run, Option.bind_some, ih kept.2 later]
    refine congrArg (fun regs => some (Cpu.mk regs c.cr3 c.mem c.mmu)) (funext fun r' => ?_)
    by_cases member : r' ∈ rs
    · rw [if_pos member, if_pos (List.mem_cons_of_mem r member)]
    · rw [if_neg member]
      by_cases same : r' = r
      · subst same
        rw [if_pos (List.mem_cons_self ..)]
        exact Function.update_self ..
      · rw [if_neg (by simp [same, member])]
        exact Function.update_of_ne same ..

/-- `iretq` on a frame in a window. -/
theorem Cpu.iretq_window {rip cs rflags rsp ss : UInt64} (window : c.mmu.Window c.cr3 lo size base)
    (lower : lo ≤ (c.regs .rsp).toNat) (upper : (c.regs .rsp).toNat + 40 ≤ lo + size)
    (frame : ∀ i v, [rip, cs, rflags, rsp, ss][i]? = some v →
      c.mem.load (base + ((c.regs .rsp).toNat + 8 * i - lo)) 8 = v.toNat) :
    c.iretq = some (c.set .rsp rsp, ⟨rip, cs, rflags, ss⟩) := by
  have bound := window.bound
  have word (i : Nat) (v : UInt64) (listed : [rip, cs, rflags, rsp, ss][i]? = some v) (short : i < 5) :
      c.word (c.regs .rsp + UInt64.ofNat (8 * i)) = some v := by
    have address : (c.regs .rsp + UInt64.ofNat (8 * i)).toNat = (c.regs .rsp).toNat + 8 * i := by
      rw [UInt64.toNat_add, UInt64.toNat_ofNat']
      omega
    exact c.word_window window (by omega) (by omega) (address ▸ frame i v listed)
  have first : c.word (c.regs .rsp) = some rip := by
    have zero := word 0 rip rfl (by omega)
    rwa [show UInt64.ofNat (8 * 0) = 0 from rfl, UInt64.add_zero] at zero
  simp only [Cpu.iretq, first, show c.word (c.regs .rsp + 8) = some cs from word 1 cs rfl (by omega),
    show c.word (c.regs .rsp + 16) = some rflags from word 2 rflags rfl (by omega),
    show c.word (c.regs .rsp + 24) = some rsp from word 3 rsp rfl (by omega),
    show c.word (c.regs .rsp + 32) = some ss from word 4 ss rfl (by omega), Option.bind_eq_bind, Option.bind_some]

/-- `iretq` finds the five words that were pushed for it, on any tables that have
the window at the same place. -/
theorem Cpu.Pushed.iretq {c1 c2 : Cpu} {ss rsp rflags cs rip : UInt64}
    (pushed : Cpu.Pushed lo base [ss, rsp, rflags, cs, rip] c c1) (lower : lo + 40 ≤ (c.regs .rsp).toNat)
    (upper : (c.regs .rsp).toNat ≤ lo + size) (window : c2.mmu.Window c2.cr3 lo size base) (mem : c2.mem = c1.mem)
    (top : c2.regs .rsp = c1.regs .rsp) : c2.iretq = some (c2.set .rsp rsp, ⟨rip, cs, rflags, ss⟩) := by
  obtain ⟨pointer, regs, count⟩ := pushed.regs
  replace count : pointer.toNat + 40 = (c.regs .rsp).toNat := count
  rw [regs, Function.update_self] at top
  refine Cpu.iretq_window window (by rw [top]; omega) (by rw [top]; omega) fun i v listed => ?_
  have index : i < 5 := by
    by_contra beyond
    rw [List.getElem?_eq_none (Nat.le_of_not_lt beyond)] at listed
    cases listed
  have place : (c.regs .rsp).toNat - 8 * (4 - i + 1) - lo = pointer.toNat + 8 * i - lo := by omega
  rw [mem, top, ← place]
  refine pushed.words (4 - i) v (Eq.trans ?_ listed)
  have each : i = 0 ∨ i = 1 ∨ i = 2 ∨ i = 3 ∨ i = 4 := by omega
  rcases each with rfl | rfl | rfl | rfl | rfl <;> rfl

end

end X86
