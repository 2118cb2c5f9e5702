import Mathlib.Algebra.Ring.Nat
import Mathlib.Data.List.Basic
import Mathlib.Logic.Function.Basic

namespace ProkaKernel

/-- The registers of a local APIC that the kernel uses. -/
inductive LapicReg
  | id
  | eoi
  | sivr
  | lvtTimer
  | lvtLint0
  | lvtLint1
  | lvtError
  | ticr
  | tdcr
deriving DecidableEq

namespace LapicReg

/-- The number of a register in x2APIC mode, and its offset otherwise. -/
def loc : LapicReg → Nat × Nat
  | id => (0x802, 0x020)
  | eoi => (0x80b, 0x0b0)
  | sivr => (0x80f, 0x0f0)
  | lvtTimer => (0x832, 0x320)
  | lvtLint0 => (0x835, 0x350)
  | lvtLint1 => (0x836, 0x360)
  | lvtError => (0x837, 0x370)
  | ticr => (0x838, 0x380)
  | tdcr => (0x83e, 0x3e0)

def all : List LapicReg := [id, eoi, sivr, lvtTimer, lvtLint0, lvtLint1, lvtError, ticr, tdcr]

/-- An entry of the local vector table. -/
def isLvt : LapicReg → Bool
  | lvtTimer | lvtLint0 | lvtLint1 | lvtError => true
  | _ => false

end LapicReg

inductive LocalApicMode
  | xApic (xapicBase : Nat)
  | x2Apic

inductive LocalApicRegister
  | x2apic (msr : Nat)
  | xapicOffset (addr : Nat)

def LocalApicRegister.new : LocalApicMode → Nat × Nat → LocalApicRegister
  | .xApic xapicBase, loc => .xapicOffset (xapicBase + loc.2)
  | .x2Apic, loc => .x2apic loc.1

inductive TimerMode
  | oneShot
  | periodic
  | tscDeadline

def TimerMode.intoU32 : TimerMode → Nat
  | oneShot => 0
  | periodic => 1
  | tscDeadline => 2

inductive TimerDivide
  | div2
  | div4
  | div8
  | div16
  | div32
  | div64
  | div128
  | div1

def TimerDivide.intoU32 : TimerDivide → Nat
  | div2 => 0
  | div4 => 1
  | div8 => 2
  | div16 => 3
  | div32 => 8
  | div64 => 9
  | div128 => 10
  | div1 => 11

structure LocalApic where
  mode : LocalApicMode
  timerVector : Nat
  errorVector : Nat
  spuriousVector : Nat
  timerMode : TimerMode
  timerDivide : TimerDivide
  timerInitial : Nat

/-- The processor with its APIC, and the kernel's table `LAPIC_PER_CPU`. The vectors
in service are listed from the highest one on. -/
structure Apic where
  apicBase : Nat
  hasX2apic : Bool
  x2Id : Nat
  regs : LapicReg → Nat
  inService : List Nat := []
  perCpu : Nat → Option LocalApic := fun _ => none

/-- The bit of a word is set or cleared. -/
def setBit (bit : Nat) (on : Bool) (value : Nat) : Nat :=
  value % 2 ^ bit + (if on then 2 ^ bit else 0) + value / 2 ^ (bit + 1) * 2 ^ (bit + 1)

def setBitRange (start stop bits value : Nat) : Nat := value % 2 ^ start + bits * 2 ^ start + value / 2 ^ stop * 2 ^ stop

namespace Apic

def x2Enabled (m : Apic) : Bool := m.apicBase / 2 ^ 10 % 2 == 1

/-- The APIC is switched on at all. -/
def apicEnabled (m : Apic) : Bool := m.apicBase / 2 ^ 11 % 2 == 1

/-- The APIC is enabled by software. -/
def softEnabled (m : Apic) : Bool := m.regs .sivr / 2 ^ 8 % 2 == 1

/-- The register that an access reaches; there is none in an APIC that is off or in the
other mode. -/
def decode (m : Apic) : LocalApicRegister → Option LapicReg
  | .x2apic msr => if m.apicEnabled && m.x2Enabled then LapicReg.all.find? (fun reg => reg.loc.1 == msr) else none
  | .xapicOffset addr =>
    if m.apicEnabled && !m.x2Enabled then LapicReg.all.find? (fun reg => m.apicBase / 4096 * 4096 + reg.loc.2 == addr)
    else none

def read (m : Apic) (register : LocalApicRegister) : Option Nat :=
  (m.decode register).map fun reg =>
    if reg = .id then if m.x2Enabled then m.x2Id else m.x2Id % 256 * 2 ^ 24 else m.regs reg

/-- As long as the APIC is disabled by software, the masks of the local vector table
stay set. -/
def stored (m : Apic) (reg : LapicReg) (value : Nat) : Nat :=
  if reg.isLvt && !m.softEnabled then setBit 16 true value else value

/-- A write to the EOI register ends the highest interrupt in service. -/
def write (m : Apic) (register : LocalApicRegister) (value : Nat) : Option Apic :=
  (m.decode register).map fun reg =>
    if reg = .eoi then { m with inService := m.inService.tail }
    else { m with regs := Function.update m.regs reg (m.stored reg value) }

/-- `set_…_bit` and `set_…_bit_range`. -/
def modify (mode : LocalApicMode) (reg : LapicReg) (f : Nat → Nat) (m : Apic) : Option Apic := do
  let value ← m.read (.new mode reg.loc)
  m.write (.new mode reg.loc) (f value)

end Apic

namespace LocalApic

/-- The mode of an APIC that is off cannot be set. -/
def x2apicModeEnable (m : Apic) : Option Apic :=
  if m.apicEnabled then some { m with apicBase := setBit 10 true m.apicBase } else none

/-- A vector above 255 is a panic. -/
def remapLvtEntries (lapic : LocalApic) (m : Apic) : Option Apic :=
  if 255 < lapic.timerVector ∨ 255 < lapic.errorVector ∨ 255 < lapic.spuriousVector then none
  else do
    let m ← m.modify lapic.mode .lvtTimer (setBitRange 0 8 lapic.timerVector)
    let m ← m.modify lapic.mode .lvtError (setBitRange 0 8 lapic.errorVector)
    m.modify lapic.mode .sivr (setBitRange 0 8 lapic.spuriousVector)

def configureTimer (lapic : LocalApic) (m : Apic) : Option Apic := do
  let m ← m.modify lapic.mode .lvtTimer (setBitRange 17 19 lapic.timerMode.intoU32)
  let m ← m.modify lapic.mode .tdcr (setBitRange 0 4 lapic.timerDivide.intoU32)
  m.write (.new lapic.mode LapicReg.ticr.loc) lapic.timerInitial

def enableTimer (lapic : LocalApic) (m : Apic) : Option Apic := m.modify lapic.mode .lvtTimer (setBit 16 false)

def disableLocalInterruptPins (lapic : LocalApic) (m : Apic) : Option Apic := do
  let m ← m.write (.new lapic.mode LapicReg.lvtLint0.loc) 0
  m.write (.new lapic.mode LapicReg.lvtLint1.loc) 0

def softwareEnable (lapic : LocalApic) (m : Apic) : Option Apic := m.modify lapic.mode .sivr (setBit 8 true)

def enable (lapic : LocalApic) (m : Apic) : Option Apic := do
  let m ← match lapic.mode with
    | .x2Apic => x2apicModeEnable m
    | .xApic _ => some m
  let m ← lapic.remapLvtEntries m
  let m ← lapic.configureTimer m
  let m ← lapic.enableTimer m
  let m ← lapic.disableLocalInterruptPins m
  lapic.softwareEnable m

end LocalApic

namespace Apic

/-- `xapic_base`: the bits of the mask 0xFFFFFF000. -/
def xapicBase (m : Apic) : Nat := m.apicBase % 2 ^ 36 / 4096 * 4096

/-- What the builder makes of the settings of `lapic::init`. -/
def built (m : Apic) : LocalApic where
  mode := if m.hasX2apic then .x2Apic else .xApic m.xapicBase
  timerVector := 0x30
  errorVector := 0xf1
  spuriousVector := 0xf0
  timerMode := .periodic
  timerDivide := .div16
  timerInitial := 20000

/-- `apic_id`. -/
def apicId (m : Apic) : Option Nat :=
  if m.x2Enabled then m.read (.x2apic 0x802)
  else (m.read (.xapicOffset (m.apicBase / 4096 * 4096 + 0x20))).map fun id => id / 2 ^ 24 % 256

def maxCpus : Nat := 256

/-- `lapic::init`; an index beyond the table is a panic. -/
def init (m : Apic) : Option Apic := do
  let lapic := m.built
  let id ← m.apicId
  if id < maxCpus then lapic.enable { m with perCpu := Function.update m.perCpu id (some lapic) } else none

def sendEoi (m : Apic) : Option Apic := do
  let id ← m.apicId
  if id < maxCpus then
    match m.perCpu id with
    | some lapic => m.write (.new lapic.mode LapicReg.eoi.loc) 0
    | none => some m
  else none

end Apic

/-- The interrupts that the APIC itself brings. -/
inductive LapicIrq
  | timer
  | error
  | spurious

def LapicIrq.vector : LapicIrq → Nat
  | timer => 0x30
  | error => 0xf1
  | spurious => 0xf0

namespace Apic

/-- An interrupt whose handler acknowledges it. It waits behind one in service of its
class or of a higher one. -/
def serve (m : Apic) (vector : Nat) : Option Apic :=
  if m.inService.any fun v => vector / 16 ≤ v / 16 then some m
  else sendEoi { m with inService := vector :: m.inService }

/-- An interrupt with its handler: `switch_task` and the error handler acknowledge it,
and a spurious one is never in service. -/
def interrupt (m : Apic) : LapicIrq → Option Apic
  | .timer => m.serve LapicIrq.timer.vector
  | .error => m.serve LapicIrq.error.vector
  | .spurious => some m

def interrupts (m : Apic) (irqs : List LapicIrq) : Option Apic := irqs.foldlM interrupt m

/-- The registers of the APIC are where this mode looks for them. -/
def Reaches (m : Apic) : LocalApicMode → Prop
  | .x2Apic => m.apicEnabled = true ∧ m.x2Enabled = true
  | .xApic xapicBase => m.apicEnabled = true ∧ m.x2Enabled = false ∧ xapicBase = m.apicBase / 4096 * 4096

section
variable {m m' : Apic} {mode : LocalApicMode} {reg : LapicReg}

theorem Reaches.decode (reaches : m.Reaches mode) (reg : LapicReg) : m.decode (.new mode reg.loc) = some reg := by
  cases mode with
  | x2Apic =>
    obtain ⟨enabled, mode⟩ := reaches
    rw [LocalApicRegister.new, Apic.decode, enabled, mode]
    cases reg <;> rfl
  | xApic xapicBase =>
    obtain ⟨enabled, mode, rfl⟩ := reaches
    rw [LocalApicRegister.new, Apic.decode, enabled, mode]
    cases reg <;> simp [LapicReg.all, LapicReg.loc]

theorem Reaches.enabled (reaches : m.Reaches mode) : m.apicEnabled = true := by
  cases mode <;> exact reaches.1

/-- A register is replaced by what the APIC stores of a new value. -/
def put (m : Apic) (reg : LapicReg) (f : Nat → Nat) : Apic :=
  { m with regs := Function.update m.regs reg (m.stored reg (f (m.regs reg))) }

theorem put_reaches {f : Nat → Nat} (reaches : m.Reaches mode) : (m.put reg f).Reaches mode := by
  cases mode <;> exact reaches

theorem put_self (m : Apic) (reg : LapicReg) (f : Nat → Nat) : (m.put reg f).regs reg = m.stored reg (f (m.regs reg)) :=
  Function.update_self ..

theorem put_of_ne {other : LapicReg} (apart : other ≠ reg) (f : Nat → Nat) : (m.put reg f).regs other = m.regs other :=
  Function.update_of_ne apart ..

theorem put_soft {f : Nat → Nat} (apart : reg ≠ .sivr) : (m.put reg f).softEnabled = m.softEnabled := by
  rw [softEnabled, put_of_ne apart.symm, softEnabled]

theorem Reaches.write (reaches : m.Reaches mode) (other : reg ≠ .eoi) (value : Nat) :
    m.write (.new mode reg.loc) value = some (m.put reg fun _ => value) := by
  rw [Apic.write, reaches.decode, Option.map_some, if_neg other]
  rfl

theorem Reaches.modify (reaches : m.Reaches mode) (other : reg ≠ .eoi) (plain : reg ≠ .id) (f : Nat → Nat) :
    m.modify mode reg f = some (m.put reg f) := by
  have value : m.read (.new mode reg.loc) = some (m.regs reg) := by
    rw [read, reaches.decode, Option.map_some, if_neg plain]
  rw [Apic.modify, value]
  exact reaches.write other _

/-- One write after another, all of which reach their registers. -/
theorem Reaches.modify_bind {last : Option Apic} {next : Apic → Option Apic} (reaches : m.Reaches mode)
    (other : reg ≠ .eoi) (plain : reg ≠ .id) (f : Nat → Nat)
    (rest : (m.put reg f).Reaches mode → next (m.put reg f) = last) : (m.modify mode reg f).bind next = last := by
  rw [reaches.modify other plain, Option.bind_some]
  exact rest (put_reaches reaches)

theorem Reaches.write_bind {last : Option Apic} {next : Apic → Option Apic} (reaches : m.Reaches mode)
    (other : reg ≠ .eoi) (value : Nat)
    (rest : (m.put reg fun _ => value).Reaches mode → next (m.put reg fun _ => value) = last) :
    (m.write (.new mode reg.loc) value).bind next = last := by
  rw [reaches.write other, Option.bind_some]
  exact rest (put_reaches reaches)

end

/-- The vectors, and the settings of the timer. -/
def remapped (m : Apic) (lapic : LocalApic) : Apic :=
  let m := m.put .lvtTimer (setBitRange 0 8 lapic.timerVector)
  let m := m.put .lvtError (setBitRange 0 8 lapic.errorVector)
  m.put .sivr (setBitRange 0 8 lapic.spuriousVector)

def configured (m : Apic) (lapic : LocalApic) : Apic :=
  let m := m.put .lvtTimer (setBitRange 17 19 lapic.timerMode.intoU32)
  let m := m.put .tdcr (setBitRange 0 4 lapic.timerDivide.intoU32)
  m.put .ticr fun _ => lapic.timerInitial

/-- The writes of `enable`, in their order. -/
def programmed (m : Apic) (lapic : LocalApic) : Apic :=
  let m := ((m.remapped lapic).configured lapic).put .lvtTimer (setBit 16 false)
  let m := (m.put .lvtLint0 fun _ => 0).put .lvtLint1 fun _ => 0
  m.put .sivr (setBit 8 true)

/-- The APIC after the switch to its mode. -/
def inMode (m : Apic) : LocalApicMode → Apic
  | .x2Apic => { m with apicBase := setBit 10 true m.apicBase }
  | .xApic _ => m

section
variable {m m' : Apic} {lapic : LocalApic}

theorem remapLvtEntries_eq (reaches : m.Reaches lapic.mode)
    (vectors : lapic.timerVector ≤ 255 ∧ lapic.errorVector ≤ 255 ∧ lapic.spuriousVector ≤ 255) :
    lapic.remapLvtEntries m = some (m.remapped lapic) ∧ (m.remapped lapic).Reaches lapic.mode := by
  refine ⟨?_, put_reaches (put_reaches (put_reaches reaches))⟩
  rw [LocalApic.remapLvtEntries, if_neg (by omega)]
  refine reaches.modify_bind (by decide) (by decide) _ fun first => ?_
  refine first.modify_bind (by decide) (by decide) _ fun second => ?_
  exact second.modify (by decide) (by decide) _

theorem configureTimer_eq (reaches : m.Reaches lapic.mode) :
    lapic.configureTimer m = some (m.configured lapic) ∧ (m.configured lapic).Reaches lapic.mode := by
  refine ⟨?_, put_reaches (put_reaches (put_reaches reaches))⟩
  refine reaches.modify_bind (by decide) (by decide) _ fun first => ?_
  refine first.modify_bind (by decide) (by decide) _ fun second => ?_
  exact second.write (by decide) _

theorem enable_eq (enabled : m.apicEnabled = true) (reaches : (m.inMode lapic.mode).Reaches lapic.mode)
    (vectors : lapic.timerVector ≤ 255 ∧ lapic.errorVector ≤ 255 ∧ lapic.spuriousVector ≤ 255) :
    lapic.enable m = some ((m.inMode lapic.mode).programmed lapic) := by
  have start : lapic.enable m = (do
      let m ← lapic.remapLvtEntries (m.inMode lapic.mode)
      let m ← lapic.configureTimer m
      let m ← lapic.enableTimer m
      let m ← lapic.disableLocalInterruptPins m
      lapic.softwareEnable m) := by
    unfold LocalApic.enable LocalApic.x2apicModeEnable inMode
    rw [if_pos enabled]
    cases lapic.mode <;> rfl
  obtain ⟨remap, r1⟩ := remapLvtEntries_eq reaches vectors
  obtain ⟨configure, r2⟩ := configureTimer_eq r1
  have pins {k : Apic} (r : k.Reaches lapic.mode) : lapic.disableLocalInterruptPins k =
      some ((k.put .lvtLint0 fun _ => 0).put .lvtLint1 fun _ => 0) :=
    r.write_bind (by decide) 0 fun first => first.write (by decide) 0
  rw [start, remap]
  change (lapic.configureTimer _).bind _ = _
  rw [configure, Option.bind_some]
  refine r2.modify_bind (by decide) (by decide) _ fun r3 => ?_
  change (lapic.disableLocalInterruptPins _).bind _ = _
  rw [pins r3, Option.bind_some]
  exact (put_reaches (put_reaches r3)).modify (by decide) (by decide) _

theorem remapped_soft (small : lapic.spuriousVector ≤ 255) : (m.remapped lapic).softEnabled = m.softEnabled := by
  have value : (m.remapped lapic).regs .sivr = setBitRange 0 8 lapic.spuriousVector (m.regs .sivr) := put_self ..
  have same : setBitRange 0 8 lapic.spuriousVector (m.regs .sivr) / 2 ^ 8 % 2 = m.regs .sivr / 2 ^ 8 % 2 := by
    unfold setBitRange
    omega
  rw [softEnabled, value, same, softEnabled]

theorem configured_soft : (m.configured lapic).softEnabled = m.softEnabled := by
  unfold configured
  rw [put_soft (by decide), put_soft (by decide), put_soft (by decide)]

theorem stored_lvt {reg : LapicReg} (table : reg.isLvt = true) (value : Nat) :
    m.stored reg value = if m.softEnabled then value else setBit 16 true value := by
  rw [stored, table]
  cases m.softEnabled <;> rfl

/-- The entry of the timer after all writes. -/
theorem programmed_timer (small : lapic.spuriousVector ≤ 255) : (m.programmed lapic).regs .lvtTimer =
    let keep := fun value => if m.softEnabled then value else setBit 16 true value
    keep (setBit 16 false (keep (setBitRange 17 19 lapic.timerMode.intoU32
      (keep (setBitRange 0 8 lapic.timerVector (m.regs .lvtTimer)))))) := by
  have first : (m.remapped lapic).regs .lvtTimer =
      m.stored .lvtTimer (setBitRange 0 8 lapic.timerVector (m.regs .lvtTimer)) := by
    unfold remapped
    rw [put_of_ne (by decide), put_of_ne (by decide), put_self]
  have second : ((m.remapped lapic).configured lapic).regs .lvtTimer =
      (m.remapped lapic).stored .lvtTimer
        (setBitRange 17 19 lapic.timerMode.intoU32 ((m.remapped lapic).regs .lvtTimer)) := by
    unfold configured
    rw [put_of_ne (by decide), put_of_ne (by decide), put_self]
  unfold programmed
  rw [put_of_ne (by decide), put_of_ne (by decide), put_of_ne (by decide), put_self, second, first, stored_lvt rfl,
    stored_lvt rfl, stored_lvt rfl, configured_soft, remapped_soft small]

/-- The other entries of the local vector table, and the registers beside it. -/
theorem programmed_lvt (small : lapic.spuriousVector ≤ 255) :
    let keep := fun value => if m.softEnabled then value else setBit 16 true value
    (m.programmed lapic).regs .lvtError = keep (setBitRange 0 8 lapic.errorVector (m.regs .lvtError)) ∧
      (m.programmed lapic).regs .lvtLint0 = keep 0 ∧ (m.programmed lapic).regs .lvtLint1 = keep 0 := by
  have timer : (((m.remapped lapic).configured lapic).put .lvtTimer (setBit 16 false)).softEnabled = m.softEnabled := by
    rw [put_soft (by decide), configured_soft, remapped_soft small]
  unfold programmed
  refine ⟨?_, ?_, ?_⟩
  · unfold configured remapped
    rw [put_of_ne (by decide), put_of_ne (by decide), put_of_ne (by decide), put_of_ne (by decide), put_of_ne (by decide),
      put_of_ne (by decide), put_of_ne (by decide), put_of_ne (by decide), put_self, put_of_ne (by decide), stored_lvt rfl,
      put_soft (by decide)]
  · rw [put_of_ne (by decide), put_of_ne (by decide), put_self, stored_lvt rfl, timer]
  · rw [put_of_ne (by decide), put_self, stored_lvt rfl, put_soft (by decide), timer]

theorem programmed_plain : (m.programmed lapic).regs .ticr = lapic.timerInitial ∧
    (m.programmed lapic).regs .tdcr = setBitRange 0 4 lapic.timerDivide.intoU32 (m.regs .tdcr) ∧
    (m.programmed lapic).regs .sivr = setBit 8 true (setBitRange 0 8 lapic.spuriousVector (m.regs .sivr)) := by
  unfold programmed configured remapped
  refine ⟨?_, ?_, ?_⟩
  · rw [put_of_ne (by decide), put_of_ne (by decide), put_of_ne (by decide), put_of_ne (by decide), put_self]
    rfl
  · rw [put_of_ne (by decide), put_of_ne (by decide), put_of_ne (by decide), put_of_ne (by decide), put_of_ne (by decide),
      put_self]
    rfl
  · rw [put_self, put_of_ne (by decide), put_of_ne (by decide), put_of_ne (by decide), put_of_ne (by decide),
      put_of_ne (by decide), put_of_ne (by decide), put_self, put_of_ne (by decide), put_of_ne (by decide)]
    rfl

/-- The number under which the processor finds itself. -/
def cpu (m : Apic) : Nat := if m.x2Enabled then m.x2Id else m.x2Id % 256

theorem apicId_eq (enabled : m.apicEnabled = true) : m.apicId = some m.cpu := by
  unfold apicId cpu
  split
  · rename_i mode
    have reaches : m.Reaches .x2Apic := ⟨enabled, mode⟩
    have found : m.decode (.x2apic 0x802) = some .id := reaches.decode .id
    rw [read, found, Option.map_some, if_pos rfl, if_pos mode]
  · rename_i mode
    have reaches : m.Reaches (.xApic (m.apicBase / 4096 * 4096)) := ⟨enabled, Bool.eq_false_iff.mpr mode, rfl⟩
    have found : m.decode (.xapicOffset (m.apicBase / 4096 * 4096 + 0x20)) = some .id := reaches.decode .id
    rw [read, found, Option.map_some, if_pos rfl, if_neg mode, Option.map_some]
    congr 1
    omega

/-- In the mode that the builder chooses the registers are reached. -/
theorem built_reaches (enabled : m.apicEnabled = true)
    (older : m.hasX2apic = false → m.x2Enabled = false ∧ m.xapicBase = m.apicBase / 4096 * 4096) :
    (m.inMode m.built.mode).Reaches m.built.mode := by
  unfold built
  dsimp only
  split
  · have on : setBit 10 true m.apicBase / 2 ^ 10 % 2 = 1 := by
      simp only [setBit, if_true]
      omega
    have kept : setBit 10 true m.apicBase / 2 ^ 11 % 2 = m.apicBase / 2 ^ 11 % 2 := by
      simp only [setBit, if_true]
      omega
    exact ⟨beq_iff_eq.mpr (kept.trans (beq_iff_eq.mp enabled)), beq_iff_eq.mpr on⟩
  · rename_i missing
    exact ⟨enabled, older (Bool.eq_false_iff.mpr missing)⟩

theorem init_eq (enabled : m.apicEnabled = true) (reaches : (m.inMode m.built.mode).Reaches m.built.mode) :
    m.init = if m.cpu < maxCpus then
      some ((inMode { m with perCpu := Function.update m.perCpu m.cpu (some m.built) } m.built.mode).programmed m.built)
      else none := by
  unfold init
  rw [apicId_eq enabled]
  refine if_congr Iff.rfl ?_ rfl
  exact enable_eq enabled (by cases mode : m.built.mode <;> rw [mode] at reaches <;> exact reaches)
    (by simp only [built]; decide)

theorem decode_enabled {register : LocalApicRegister} {reg : LapicReg} (found : m.decode register = some reg) :
    m.apicEnabled = true := by
  cases register with
  | x2apic msr =>
    obtain ⟨on, _⟩ := Option.ite_none_right_eq_some.mp found
    exact (Bool.and_eq_true_iff.mp on).1
  | xapicOffset addr =>
    obtain ⟨on, _⟩ := Option.ite_none_right_eq_some.mp found
    exact (Bool.and_eq_true_iff.mp on).1

theorem apicId_enabled {id : Nat} (run : m.apicId = some id) : m.apicEnabled = true := by
  unfold apicId at run
  split at run
  · obtain ⟨reg, found, _⟩ := Option.map_eq_some_iff.mp run
    exact decode_enabled found
  · obtain ⟨_, value, _⟩ := Option.map_eq_some_iff.mp run
    obtain ⟨reg, found, _⟩ := Option.map_eq_some_iff.mp value
    exact decode_enabled found

/-- A register at an offset is only reached in the older mode, and from its page. -/
theorem decode_offset {xapicBase : Nat} {reg reg' : LapicReg} (page : xapicBase % 4096 = 0)
    (found : m.decode (.new (.xApic xapicBase) reg.loc) = some reg') :
    m.x2Enabled = false ∧ xapicBase = m.apicBase / 4096 * 4096 := by
  obtain ⟨on, there⟩ := Option.ite_none_right_eq_some.mp found
  have addr : m.apicBase / 4096 * 4096 + reg'.loc.2 = xapicBase + reg.loc.2 := by
    simpa only [beq_iff_eq] using List.find?_some there
  have offset (r : LapicReg) : r.loc.2 < 4096 := by cases r <;> decide
  have here := offset reg
  have other := offset reg'
  refine ⟨(Bool.not_eq_true' _).mp (Bool.and_eq_true_iff.mp on).2, ?_⟩
  omega

/-- Where `lapic::init` returns, it has found the registers. -/
theorem init_reaches (run : m.init = some m') :
    m.apicEnabled = true ∧ (m.inMode m.built.mode).Reaches m.built.mode := by
  obtain ⟨id, found, run⟩ := Option.bind_eq_some_iff.mp run
  have enabled := apicId_enabled found
  refine ⟨enabled, built_reaches enabled fun missing => ?_⟩
  obtain ⟨_, run⟩ := Option.ite_none_right_eq_some.mp run
  have mode : m.built.mode = .xApic m.xapicBase := if_neg (by rw [missing]; exact Bool.false_ne_true)
  unfold LocalApic.enable at run
  rw [mode] at run
  obtain ⟨_, start, run⟩ := Option.bind_eq_some_iff.mp run
  cases Option.some.inj start
  obtain ⟨_, run, _⟩ := Option.bind_eq_some_iff.mp run
  unfold LocalApic.remapLvtEntries at run
  obtain ⟨_, run⟩ := Option.ite_none_left_eq_some.mp run
  obtain ⟨_, first, _⟩ := Option.bind_eq_some_iff.mp run
  obtain ⟨_, value, _⟩ := Option.bind_eq_some_iff.mp first
  obtain ⟨reg, decoded, _⟩ := Option.map_eq_some_iff.mp value
  rw [mode] at decoded
  exact decode_offset (by rw [xapicBase]; omega) decoded

/-- The table has an entry for the processor, whose mode is the one the APIC is in. -/
structure Ready (m : Apic) : Prop where
  inTable : m.cpu < maxCpus
  idle : m.inService = []
  entry : ∃ lapic, m.perCpu m.cpu = some lapic ∧ m.Reaches lapic.mode

theorem Ready.serve (ready : m.Ready) (vector : Nat) : m.serve vector = some m := by
  obtain ⟨lapic, entry, reaches⟩ := ready.entry
  have free : (m.inService.any fun v => vector / 16 ≤ v / 16) = false := by
    rw [ready.idle]
    rfl
  have reaches' : Reaches { m with inService := vector :: m.inService } lapic.mode := by
    cases mode : lapic.mode <;> rw [mode] at reaches <;> exact reaches
  have entry' : Apic.perCpu { m with inService := vector :: m.inService }
      (cpu { m with inService := vector :: m.inService }) = some lapic := entry
  unfold Apic.serve sendEoi
  rw [free, if_neg Bool.false_ne_true, apicId_eq reaches'.enabled]
  refine (if_pos ready.inTable).trans ?_
  rw [entry']
  dsimp only
  rw [Apic.write, reaches'.decode, Option.map_some, if_pos rfl]
  rfl

theorem Ready.interrupt (ready : m.Ready) (irq : LapicIrq) : m.interrupt irq = some m := by
  cases irq with
  | timer => exact ready.serve _
  | error => exact ready.serve _
  | spurious => rfl

theorem Ready.interrupts (ready : m.Ready) (irqs : List LapicIrq) : m.interrupts irqs = some m := by
  induction irqs with
  | nil => rfl
  | cons irq irqs ih =>
    rw [Apic.interrupts, List.foldlM_cons, ready.interrupt]
    exact ih

/-- What `lapic::init` leaves for the handlers. -/
theorem init_after (idle : m.inService = []) (run : m.init = some m') : m'.inService = [] ∧ m'.perCpu m.cpu = some m.built ∧
    m'.Reaches m.built.mode ∧ (m'.cpu = if m.hasX2apic then m.x2Id else m.cpu) ∧ m.cpu < maxCpus := by
  obtain ⟨enabled, reaches⟩ := init_reaches run
  rw [init_eq enabled reaches] at run
  obtain ⟨inTable, same⟩ := Option.ite_none_right_eq_some.mp run
  cases Option.some.inj same
  cases support : m.hasX2apic with
  | true =>
    have mode : m.built.mode = .x2Apic := if_pos support
    rw [mode] at reaches ⊢
    refine ⟨idle, Function.update_self .., reaches, ?_, inTable⟩
    exact if_pos reaches.2
  | false =>
    have mode : m.built.mode = .xApic m.xapicBase := if_neg (by rw [support]; exact Bool.false_ne_true)
    rw [mode] at reaches ⊢
    exact ⟨idle, Function.update_self .., reaches, rfl, inTable⟩

/-- Where `lapic::init` returns, the registers are set whatever they held before. But the
masks are cleared while the APIC may still be disabled by software: the timer runs
exactly if it was enabled before, and then the pins are not masked either. -/
theorem timer_runs_iff (run : m.init = some m') :
    m'.regs .lvtTimer % 2 ^ 8 = 0x30 ∧ m'.regs .lvtTimer / 2 ^ 17 % 4 = TimerMode.periodic.intoU32 ∧
      m'.regs .ticr = 20000 ∧ m'.regs .tdcr % 16 = TimerDivide.div16.intoU32 ∧ m'.regs .lvtError % 2 ^ 8 = 0xf1 ∧
      m'.regs .sivr % 2 ^ 9 = 0x1f0 ∧ (m'.regs .lvtTimer / 2 ^ 16 % 2 = 0 ↔ m.softEnabled = true) ∧
      (m'.regs .lvtLint0 / 2 ^ 16 % 2 = 0 ↔ m.softEnabled = true) ∧
      (m'.regs .lvtLint1 / 2 ^ 16 % 2 = 0 ↔ m.softEnabled = true) := by
  obtain ⟨enabled, reaches⟩ := init_reaches run
  rw [init_eq enabled reaches] at run
  obtain ⟨_, same⟩ := Option.ite_none_right_eq_some.mp run
  cases Option.some.inj same
  have regs : (inMode { m with perCpu := Function.update m.perCpu m.cpu (some m.built) } m.built.mode).regs = m.regs := by
    cases m.built.mode <;> rfl
  have soft : (inMode { m with perCpu := Function.update m.perCpu m.cpu (some m.built) } m.built.mode).softEnabled =
      m.softEnabled := by
    rw [softEnabled, regs, softEnabled]
  have small : m.built.spuriousVector ≤ 255 := by simp only [built]; decide
  obtain ⟨error, lint0, lint1⟩ := @programmed_lvt (inMode _ m.built.mode) m.built small
  obtain ⟨ticr, tdcr, sivr⟩ := @programmed_plain (inMode _ m.built.mode) m.built
  rw [programmed_timer small, error, lint0, lint1, ticr, tdcr, sivr, soft, regs]
  simp only [built, setBit, setBitRange, TimerMode.intoU32, TimerDivide.intoU32]
  cases m.softEnabled with
  | true =>
    simp only [if_true, Bool.false_eq_true, if_false, iff_true, true_and]
    omega
  | false =>
    simp only [if_true, Bool.false_eq_true, if_false, iff_false, true_and]
    omega

/-- A processor with x2APIC support that is still in the older mode. -/
def bootApic (x2Id sivr : Nat) : Apic where
  apicBase := 0xfee00900
  hasX2apic := true
  x2Id := x2Id
  regs := fun reg => if reg = .sivr then sivr else 0x10000

theorem bootApic_init (x2Id sivr : Nat) : ∃ m', (bootApic x2Id sivr).init = some m' := by
  have older : ¬(bootApic x2Id sivr).x2Enabled = true := show ¬(0xfee00900 / 2 ^ 10 % 2 == 1) = true by decide
  have inTable : (bootApic x2Id sivr).cpu < maxCpus := by
    rw [cpu, if_neg older]
    exact Nat.mod_lt _ (by decide)
  have enabled : (bootApic x2Id sivr).apicEnabled = true := show (0xfee00900 / 2 ^ 11 % 2 == 1) = true by decide
  have reaches := built_reaches enabled fun missing => absurd missing.symm Bool.false_ne_true
  exact ⟨_, (init_eq enabled reaches).trans (if_pos inTable)⟩

/-- From the registers' values at reset, the timer stays masked. -/
theorem timer_masked_from_reset : ∃ m', (bootApic 0 0xff).init = some m' ∧ m'.regs .lvtTimer / 2 ^ 16 % 2 ≠ 0 := by
  obtain ⟨m', run⟩ := bootApic_init 0 0xff
  obtain ⟨_, _, _, _, _, _, timer, _⟩ := timer_runs_iff run
  exact ⟨m', run, fun unmasked => absurd (timer.mp unmasked) (by decide)⟩

end

end Apic

end ProkaKernel
