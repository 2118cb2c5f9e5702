import ProkaKernel.DriverTypes
import ProkaKernel.KernelMap

namespace ProkaKernel

/-- The type of a configuration header. -/
inductive HeaderType
  | endpoint
  | pciPciBridge
  | cardBusBridge
  | unknown (code : UInt8)
  deriving DecidableEq

/-- What `driver_type_reg` reads of a function: its base class, the type of its
header and its first base address register. -/
structure PciFunction where
  baseClass : UInt8
  headerType : HeaderType
  bar0 : Option Bar

def DrvType.fromBaseClass (baseClass : UInt8) : DrvType := if baseClass = 0x03 then .graphics else .invalid

/-- The record of a memory region. -/
structure AddrFormat where
  base : UInt64
  size : UInt64
  deriving DecidableEq

/-- The 16 bytes of the record. -/
def AddrFormat.bytes (record : AddrFormat) : Nat := record.base.toNat + 2 ^ 64 * record.size.toNat

def Bar.addrFormat : Bar → Option AddrFormat
  | .memory32 address size => some ⟨address.toUInt64, size.toUInt64⟩
  | .memory64 address size => some ⟨address, size⟩
  | .ioPort _ => none

/-- The physical address of the driver-public area, 0xffff800080000000 for the
kernel. -/
def driverPublic : Nat := 0x1a00000

/-- The pointer of an empty `Vec` of records dangles at their alignment. -/
def danglingRecord : Nat := 1

/-- The copy of one record to the driver-public area. -/
def publish (barList : List AddrFormat) (m : Mem) : Mem :=
  match barList with
  | [] => m.store driverPublic 16 (m.load danglingRecord 16)
  | record :: _ => m.store driverPublic 16 record.bytes

namespace Kernel
variable {ε : Type} (mapper : DeviceMapper)

/-- `map_mmio` with the register that it returns. -/
def mapMmioBar (root : Nat) (bar : Option Bar) : Prog Kernel ε (Option Bar) := do
  mapMmio mapper root bar
  pure (bar.filter fun bar => bar.region.isSome)

/-- The loop of `driver_type_reg` over `PCILIST`. -/
def mapFunctions (isPcie : Bool) (typ : DrvType) (root : Nat) : List PciFunction → List AddrFormat →
    Prog Kernel ε (List AddrFormat)
  | [], barList => pure barList
  | function :: rest, barList =>
    if isPcie then
      if DrvType.fromBaseClass function.baseClass ≠ typ then mapFunctions isPcie typ root rest barList
      else if function.headerType ≠ .endpoint then mapFunctions isPcie typ root rest barList
      else do
        let _ ← mapMmioBar mapper root function.bar0
        mapFunctions isPcie typ root rest barList
    else
      if DrvType.fromBaseClass function.baseClass ≠ typ then mapFunctions isPcie typ root rest barList
      else if function.headerType ≠ .endpoint then mapFunctions isPcie typ root rest barList
      else do
        match ← mapMmioBar mapper root function.bar0 with
        | none => mapFunctions isPcie typ root rest barList
        | some bar =>
          match bar.addrFormat with
          | none => mapFunctions isPcie typ root rest barList
          | some addrFormat => mapFunctions isPcie typ root rest (barList ++ [addrFormat])

end Kernel

/-- `driver_type_reg` over the functions of one bus, with the record that it
leaves in the driver-public area. -/
def IndexedKernel.driverTypeRegOn (mapper : DeviceMapper) (isPcie : Bool) (t : IndexedKernel) (arg1 : UInt64) (did : Nat)
    (functions : List PciFunction) : Option IndexedKernel :=
  let typ := DrvType.ofNumber arg1
  if typ = .invalid then some t
  else
    ((do
      let barList ← Kernel.mapFunctions mapper isPcie typ ((t.kernel.sched.driverProcess did).tableAddr / 4096) functions []
      Prog.write fun k => { k with mem := publish barList k.mem } : Prog Kernel Error Unit) t.kernel).map
        fun out => ⟨out.2, t.index ++ [⟨did, typ⟩]⟩

/-- The registers of the endpoints that a driver is for. -/
def registers (typ : DrvType) (functions : List PciFunction) : List (Option Bar) :=
  (functions.filter fun function =>
    DrvType.fromBaseClass function.baseClass = typ ∧ function.headerType = .endpoint).map PciFunction.bar0

/-- The records of those that are of memory. -/
def records (typ : DrvType) (functions : List PciFunction) : List AddrFormat :=
  (registers typ functions).filterMap fun bar => bar.bind Bar.addrFormat

/-- What should be in the driver-public area after a registration: the first
record, or what was there before. -/
def intended (typ : DrvType) (functions : List PciFunction) (m : Mem) : Nat :=
  match records typ functions with
  | [] => m.load driverPublic 16
  | record :: _ => record.bytes

theorem AddrFormat.bytes_lt (record : AddrFormat) : record.bytes < 256 ^ 16 := by
  have base : record.base.toNat < 2 ^ 64 := record.base.toNat_lt
  have size : record.size.toNat < 2 ^ 64 := record.size.toNat_lt
  unfold bytes
  omega

theorem load_publish (barList : List AddrFormat) (m : Mem) : (publish barList m).load driverPublic 16 =
    match barList with
    | [] => m.load danglingRecord 16
    | record :: _ => record.bytes := by
  cases barList with
  | nil => exact (m.load_store _ _ _).trans (Nat.mod_eq_of_lt (m.load_lt _ _))
  | cons record rest => exact (m.load_store _ _ _).trans (Nat.mod_eq_of_lt record.bytes_lt)

/-- The addresses of the copy are where the kernel's tables have them. -/
theorem driverPublic_translated (m : Mem) (oldPml4 : Nat) {i : Nat} (inside : i < 16) :
    hwTranslate (Paging.init (Paging.clearTables m) oldPml4) Paging.pml4 (0xffff800080000000 + i) =
      some (driverPublic + i) ∧
    hwTranslate (Paging.init (Paging.clearTables m) oldPml4) Paging.pml4 (danglingRecord + i) =
      some (danglingRecord + i) := by
  constructor
  · exact (Paging.translate_grw m oldPml4 (by omega)).trans (if_pos (by omega))
  · exact Paging.translate_lower m oldPml4 (by unfold danglingRecord; omega)

namespace Kernel
open Prog

section
variable {ε : Type} (mapper : DeviceMapper) (isPcie : Bool) (typ : DrvType) (root : Nat)

theorem mapMmioBar_bind {β : Type} (bar : Option Bar) (f : Option Bar → Prog Kernel ε β) :
    mapMmioBar mapper root bar >>= f =
      mapMmio mapper root bar >>= fun _ => f (bar.filter fun bar => bar.region.isSome) :=
  bind_assoc _ _ _

/-- The two branches of the loop map the same registers, and only that of
legacy PCI makes records. -/
theorem mapFunctions_eq (functions : List PciFunction) (barList : List AddrFormat) :
    (mapFunctions mapper isPcie typ root functions barList : Prog Kernel ε _) =
      mapDevices mapper root (registers typ functions) >>= fun _ =>
        pure (barList ++ if isPcie then [] else records typ functions) := by
  induction functions generalizing barList with
  | nil => cases isPcie <;> exact congrArg pure (List.append_nil _).symm
  | cons function rest ih =>
    by_cases wanted : DrvType.fromBaseClass function.baseClass = typ ∧ function.headerType = .endpoint
    · have first : registers typ (function :: rest) = function.bar0 :: registers typ rest := by
        simp only [registers, List.filter_cons, wanted, and_self, decide_true, if_true, List.map_cons]
      rw [mapFunctions, if_neg (not_not_intro wanted.1), if_neg (not_not_intro wanted.1), if_neg (not_not_intro wanted.2),
        if_neg (not_not_intro wanted.2), mapMmioBar_bind, mapMmioBar_bind, first, mapDevices, bind_assoc, records, first,
        List.filterMap_cons]
      cases isPcie with
      | true => simp only [if_true, ih]
      | false =>
        simp only [Bool.false_eq_true, if_false, ih]
        cases function.bar0 with
        | none => rfl
        | some bar => cases bar <;> simp [Bar.region, Bar.addrFormat, Option.filter, records]
    · have none : registers typ (function :: rest) = registers typ rest := by
        simp only [registers, List.filter_cons, wanted, decide_false, Bool.false_eq_true, if_false]
      have skipped : (mapFunctions mapper isPcie typ root (function :: rest) barList : Prog Kernel ε _) =
          mapFunctions mapper isPcie typ root rest barList := by
        rw [mapFunctions]
        by_cases same : DrvType.fromBaseClass function.baseClass = typ
        · have bridge : function.headerType ≠ .endpoint := fun endpoint => wanted ⟨same, endpoint⟩
          simp only [same, bridge, ne_eq, not_true, not_false_eq_true, if_true, ite_self]
        · simp only [same, ne_eq, not_false_eq_true, if_true, ite_self]
      have same : records typ (function :: rest) = records typ rest := by
        unfold records
        rw [none]
      rw [skipped, ih, none, same]

end

end Kernel

namespace IndexedKernel
open Prog

section
variable (mapper : DeviceMapper) {R : Set Nat} {t : IndexedKernel} {root did : Nat} {arg1 : UInt64}

/-- Both buses come to the same mapping, and then copy a record of their own. -/
theorem driverTypeRegOn_cases (valid : t.kernel.Valid R) (member : root ∈ R)
    (table : (t.kernel.sched.driverProcess did).tableAddr = root * 4096) (known : DrvType.ofNumber arg1 ≠ .invalid)
    (functions : List PciFunction) :
    (t.driverTypeReg mapper arg1 did (registers (.ofNumber arg1) functions) = none ∧
      ∀ isPcie, t.driverTypeRegOn mapper isPcie arg1 did functions = none) ∨
    (t.driverTypeReg mapper arg1 did (registers (.ofNumber arg1) functions) ≠ none ∧
      ∃ k index, Kernel.Mapped R t.kernel k ∧ ∀ isPcie, t.driverTypeRegOn mapper isPcie arg1 did functions =
        some ⟨{ k with mem := publish (if isPcie then [] else records (.ofNumber arg1) functions) k.mem }, index⟩) := by
  have mapped := Kernel.mapDevices_wp mapper (E := fun (_ : Error) _ => False) (registers (.ofNumber arg1) functions)
    ⟨rfl, .refl⟩ valid member
  simp only [driverTypeReg, driverTypeRegOn, if_neg known, table, Nat.mul_div_cancel root (show 0 < 4096 by decide),
    Kernel.mapFunctions_eq, List.nil_append, bind_assoc]
  cases run : (Kernel.mapDevices mapper root (registers (.ofNumber arg1) functions) : Prog Kernel Error Unit) t.kernel with
  | none => exact Or.inl ⟨rfl, fun isPcie => congrArg (Option.map _) (bind_none _ run)⟩
  | some out =>
    obtain ⟨result, k⟩ := out
    cases result with
    | error e => exact (mapped.error run).elim
    | ok done =>
      exact Or.inr ⟨Option.some_ne_none _, k, _, mapped.ok run, fun isPcie => congrArg (Option.map _) (bind_ok run)⟩

/-- The record that one bus leaves: legacy PCI finds that of the first card, and
both copy from the dangling pointer if their list is empty. -/
theorem driverTypeRegOn_record (valid : t.kernel.Valid R) (reserved : t.kernel.alloc.reserved = usedPage) (member : root ∈ R)
    (table : (t.kernel.sched.driverProcess did).tableAddr = root * 4096) (known : DrvType.ofNumber arg1 ≠ .invalid)
    (functions : List PciFunction) (isPcie : Bool) :
    (∃ t', t.driverTypeRegOn mapper isPcie arg1 did functions = some t' ∧
      t'.kernel.mem.load driverPublic 16 = intended (.ofNumber arg1) functions t.kernel.mem) ↔
    t.driverTypeReg mapper arg1 did (registers (.ofNumber arg1) functions) ≠ none ∧
      (isPcie = false ∧ records (.ofNumber arg1) functions ≠ [] ∨
        t.kernel.mem.load danglingRecord 16 = intended (.ofNumber arg1) functions t.kernel.mem) := by
  rcases driverTypeRegOn_cases mapper valid member table known functions with
    ⟨panics, both⟩ | ⟨returns, k, index, mapped, both⟩
  · simp only [both, panics, reduceCtorEq, false_and, exists_false, ne_eq, not_true]
  · have kept : k.mem.load danglingRecord 16 = t.kernel.mem.load danglingRecord 16 := by
      refine Mem.load_congr fun x lower upper => mapped.kept valid ?_
      rw [reserved]
      unfold danglingRecord at upper
      unfold usedPage
      omega
    simp only [both, returns, ne_eq, not_false_eq_true, true_and, Option.some.injEq, exists_eq_left', load_publish, ← kept]
    cases isPcie with
    | true => simp
    | false =>
      cases list : records (.ofNumber arg1) functions with
      | nil => simp
      | cons record rest => simp [intended, list]

end

/-- A registration leaves the intended record on both buses if and only if the
16 bytes at the dangling pointer of an empty list are that record already. -/
theorem driver_record_iff (mapper : DeviceMapper) (parse : List UInt8 → Option Image) {map : MemoryMap} {start : Kernel}
    {t : IndexedKernel} {tables : Set Nat} {pml4 did : Nat} {arg1 : UInt64} (boot : start.Boot map)
    (reach : Kernel.DeviceReach mapper parse start t.kernel tables) (caller : pml4 ∈ tables)
    (found : Kernel.coredrvProcess t.kernel.sched pml4 = some did) (known : DrvType.ofNumber arg1 ≠ .invalid)
    (functions : List PciFunction) :
    (∀ isPcie, ∃ t', t.driverTypeRegOn mapper isPcie arg1 did functions = some t' ∧
      t'.kernel.mem.load driverPublic 16 = intended (.ofNumber arg1) functions t.kernel.mem) ↔
    t.driverTypeReg mapper arg1 did (registers (.ofNumber arg1) functions) ≠ none ∧
      t.kernel.mem.load danglingRecord 16 = intended (.ofNumber arg1) functions t.kernel.mem := by
  obtain ⟨R, valid, edits, roots⟩ := reach.edits mapper boot
  obtain ⟨root, member, rfl⟩ := roots pml4 caller
  have reserved : t.kernel.alloc.reserved = usedPage := (edits.reserved boot.valid.stage.owns).trans boot.reserved
  have record := driverTypeRegOn_record mapper valid reserved member (Kernel.coredrvProcess_table found) known functions
  constructor
  · intro right
    obtain ⟨returns, empty | same⟩ := (record true).mp (right true)
    · cases empty.1
    · exact ⟨returns, same⟩
  · rintro ⟨returns, same⟩ isPcie
    exact (record isPcie).mpr ⟨returns, Or.inr same⟩

/-- A graphics card with 16 MiB of memory. -/
def graphicsCard : PciFunction := ⟨0x03, .endpoint, some (.memory32 0xfd000000 0x1000000)⟩

/-- The first driver of the small machine, with what is computed from the state. -/
theorem first_driver {β : Type} {f : Kernel → β} {b : β}
    (computed : (smallKernel.step FourLevel.deviceMapper.toPageMapper flatParse (.create [1, 0x90] 0)).map (fun k =>
      ((k.sched.driverProcess 0).present, (k.sched.driverProcess 0).tableAddr, f k)) = some (true, 0x1e02 * 4096, b)) :
    ∃ k tables, Kernel.DeviceReach FourLevel.deviceMapper flatParse smallKernel k tables ∧ 0x1e02 * 4096 ∈ tables ∧
      Kernel.coredrvProcess k.sched (0x1e02 * 4096) = some 0 ∧ f k = b := by
  obtain ⟨k, first, same⟩ := Option.map_eq_some_iff.mp computed
  simp only [Prod.mk.injEq] at same
  obtain ⟨present, table, same⟩ := same
  have step : smallKernel.deviceStep FourLevel.deviceMapper flatParse (.kernel (.create [1, 0x90] 0)) = some k := first
  have reach := Kernel.DeviceReach.boot.next (by exact trivial) step
  obtain ⟨R, valid, _⟩ := reach.edits _ smallKernel_boot
  refine ⟨k, _, reach, Or.inr ⟨by decide, .driver, 0, table⟩, ?_, same⟩
  rw [← table]
  exact congrArg (Option.map (· % 2 ^ 16)) (@Kernel.Valid.firstSlot_table k R valid .driver 0 (by decide) present)

/-- The card that it finds. -/
theorem first_driver_record :
    ∃ k tables, Kernel.DeviceReach FourLevel.deviceMapper flatParse smallKernel k tables ∧ 0x1e02 * 4096 ∈ tables ∧
      Kernel.coredrvProcess k.sched (0x1e02 * 4096) = some 0 ∧ k.mem.load danglingRecord 16 = 0 ∧
      k.mem.load driverPublic 16 = 0 ∧
      (driverTypeRegOn FourLevel.deviceMapper true ⟨k, []⟩ 0 0 [graphicsCard]).map (fun t =>
        t.kernel.mem.load driverPublic 16) = some 0 := by
  have computed : (smallKernel.step FourLevel.deviceMapper.toPageMapper flatParse (.create [1, 0x90] 0)).map (fun k =>
      ((k.sched.driverProcess 0).present, (k.sched.driverProcess 0).tableAddr,
        (k.mem.load danglingRecord 16, k.mem.load driverPublic 16,
          (driverTypeRegOn FourLevel.deviceMapper true ⟨k, []⟩ 0 0 [graphicsCard]).map fun t =>
            t.kernel.mem.load driverPublic 16))) = some (true, 0x1e02 * 4096, (0, 0, some 0)) := by
    decide +kernel
  obtain ⟨k, tables, reach, caller, found, same⟩ := first_driver computed
  simp only [Prod.mk.injEq] at same
  exact ⟨k, tables, reach, caller, found, same⟩

/-- A network card, which no graphics driver asks for. -/
def networkCard : PciFunction := ⟨0x02, .endpoint, some (.memory32 0xfe000000 0x20000)⟩

/-- Without a graphics card the driver-public area stays as it is if the first
bytes of memory are the same. -/
theorem driver_record_no_card :
    ∃ k tables, Kernel.DeviceReach FourLevel.deviceMapper flatParse smallKernel k tables ∧
      ∀ isPcie, ∃ t', driverTypeRegOn FourLevel.deviceMapper isPcie ⟨k, []⟩ 0 0 [networkCard] = some t' ∧
        t'.kernel.mem.load driverPublic 16 = k.mem.load driverPublic 16 := by
  obtain ⟨k, tables, reach, caller, found, dangling, area, _⟩ := first_driver_record
  refine ⟨k, tables, reach, (@driver_record_iff FourLevel.deviceMapper flatParse _ _ ⟨k, []⟩ _ _ _ 0 smallKernel_boot reach
    caller found (by decide) [networkCard]).mpr ⟨Option.some_ne_none _, dangling.trans area.symm⟩⟩

/-- On PCIe the driver is not told where its card is. -/
theorem driver_record_missing :
    ∃ k tables, Kernel.DeviceReach FourLevel.deviceMapper flatParse smallKernel k tables ∧
      Kernel.coredrvProcess k.sched (0x1e02 * 4096) = some 0 ∧
      (driverTypeRegOn FourLevel.deviceMapper true ⟨k, []⟩ 0 0 [graphicsCard]).map (fun t =>
        t.kernel.mem.load driverPublic 16) = some 0 ∧
      intended (.ofNumber 0) [graphicsCard] k.mem = 0xfd000000 + 2 ^ 64 * 0x1000000 ∧
      ¬∀ isPcie, ∃ t', driverTypeRegOn FourLevel.deviceMapper isPcie ⟨k, []⟩ 0 0 [graphicsCard] = some t' ∧
        t'.kernel.mem.load driverPublic 16 = intended (.ofNumber 0) [graphicsCard] k.mem := by
  obtain ⟨k, tables, reach, _, found, _, _, record⟩ := first_driver_record
  have wanted : intended (.ofNumber 0) [graphicsCard] k.mem = 0xfd000000 + 2 ^ 64 * 0x1000000 := rfl
  refine ⟨k, tables, reach, found, record, wanted, fun right => ?_⟩
  obtain ⟨t', run, same⟩ := right true
  rw [run, Option.map_some, same, wanted] at record
  cases record

end IndexedKernel

end ProkaKernel
