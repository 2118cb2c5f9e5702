import Mathlib.Data.List.FinRange
import ProkaKernel.DeviceWindows

namespace ProkaKernel

/-- An entry of the MCFG table of ACPI. -/
structure McfgEntry where
  baseAddress : UInt64
  pciSegmentGroup : UInt16
  busNumberStart : UInt8
  busNumberEnd : UInt8

def McfgEntry.access (entry : McfgEntry) : PcieCfgAccess := ⟨entry.baseAddress⟩

/-- The kernel's page tables and the functions that were found (`PCILIST`);
`found` also records through which access, which the code does not. -/
structure Devices (K : Type) where
  tables : K
  pciList : List PciAddress := []
  found : List (PciAddress × PcieCfgAccess) := []

def Devices.push {K : Type} (d : Devices K) (address : PciAddress) (access : PcieCfgAccess) : Devices K :=
  { d with pciList := d.pciList ++ [address], found := d.found ++ [(address, access)] }

/-- The functions of a bus, in the order of the scanning loops. -/
def busFunctions (segment : UInt16) (bus : UInt8) : List PciAddress :=
  (List.finRange 32).flatMap fun device => (List.finRange 8).map fun function => ⟨segment, bus, device, function⟩

/-- The functions of `count` buses from `first` on. -/
def functions (segment : UInt16) (first count : Nat) : List PciAddress :=
  (List.range' first count).flatMap fun bus => busFunctions segment (UInt8.ofNat bus)

/-- The functions that are probed for an entry: the loop over its buses leaves
out the last one. -/
def McfgEntry.functions (entry : McfgEntry) : List PciAddress :=
  ProkaKernel.functions entry.pciSegmentGroup entry.busNumberStart.toNat
    (entry.busNumberEnd.toNat - entry.busNumberStart.toNat)

namespace IdentityMapper

section Scan
variable {K : Type} (m : IdentityMapper K) [∀ k f, Decidable (m.mapped k f)] (overflow : Overflow) (config : Mem)

/-- The vendor id of a function, read through the identity mapping. The kernel
does not survive a fault on a page that is not mapped. -/
def vendorId (access : PcieCfgAccess) (address : PciAddress) : Prog (Devices K) Unit Nat := do
  let addr ← Prog.unwrap (access.exactAddr overflow address 0)
  let tables ← Prog.read Devices.tables
  if m.mapped tables (addr / 0x200000) then do
    let id ← Prog.unwrap (access.read overflow address config 0)
    pure (id % 2 ^ 16)
  else Prog.abort

/-- The loops over the buses, devices and functions of an entry. -/
def probe (access : PcieCfgAccess) : List PciAddress → Prog (Devices K) Unit Unit
  | [] => pure ()
  | address :: rest => do
    let id ← m.vendorId overflow config access address
    Prog.write fun d => if id ≠ 0xffff then d.push address access else d
    probe access rest

/-- A call that works on the page tables. -/
def onTables {α : Type} (x : Prog K Unit α) : Prog (Devices K) Unit α := fun d =>
  (x d.tables).map fun out => (out.1, { d with tables := out.2 })

/-- The turn of `pcie::init` for an entry. -/
def initEntry (entry : McfgEntry) : Prog (Devices K) Unit Unit := do
  onTables (m.mapPcie overflow entry.baseAddress entry.busNumberStart entry.busNumberEnd)
  m.probe overflow config entry.access entry.functions

def initEntries : List McfgEntry → Prog (Devices K) Unit Unit
  | [] => pure ()
  | entry :: rest => do
    m.initEntry overflow config entry
    initEntries rest

/-- `pcie::init` with the MCFG table, if there is one. -/
def pcieInit (mcfg : Option (List McfgEntry)) : Prog (Devices K) Unit Unit := do
  let entries ← Prog.orFail () mcfg
  m.initEntries overflow config entries

/-- The entries before the first one that `map_pcie` fails on. -/
def mappedEntries (k : K) : List McfgEntry → List McfgEntry
  | [] => []
  | entry :: rest =>
    match m.mapPcie overflow entry.baseAddress entry.busNumberStart entry.busNumberEnd k with
    | some (.ok (), k') => entry :: mappedEntries k' rest
    | _ => []

end Scan

end IdentityMapper

/-- The vendor id in the configuration space in memory. -/
def PcieCfgAccess.vendor (access : PcieCfgAccess) (config : Mem) (address : PciAddress) : Nat :=
  config.load (access.register address 0 % 2 ^ 64) 4 % 2 ^ 16

/-- What is found for an entry. -/
def McfgEntry.discovered (entry : McfgEntry) (config : Mem) : List (PciAddress × PcieCfgAccess) :=
  (entry.functions.filter fun address => entry.access.vendor config address ≠ 0xffff).map fun address => (address, entry.access)

/-- The new functions are appended, and nothing else. -/
structure Devices.Appends {K : Type} (d d' : Devices K) (new : List (PciAddress × PcieCfgAccess)) : Prop where
  pciList : d'.pciList = d.pciList ++ new.map Prod.fst
  found : d'.found = d.found ++ new

namespace Devices
variable {K : Type} {d d1 d2 : Devices K} {new more : List (PciAddress × PcieCfgAccess)}

theorem Appends.refl (d : Devices K) : d.Appends d [] := ⟨(List.append_nil _).symm, (List.append_nil _).symm⟩

theorem Appends.trans (first : d.Appends d1 new) (second : d1.Appends d2 more) : d.Appends d2 (new ++ more) where
  pciList := by rw [second.pciList, first.pciList, List.append_assoc, List.map_append]
  found := by rw [second.found, first.found, List.append_assoc]

end Devices

namespace IdentityMapper
open Prog

section Runs
variable {K : Type} {m : IdentityMapper K} [∀ k f, Decidable (m.mapped k f)] {overflow : Overflow} {config : Mem} {d : Devices K}
  {access : PcieCfgAccess} {address : PciAddress}

theorem vendorId_wp : wp (m.vendorId overflow config access address)
    (fun id d' => d' = d ∧ id = access.vendor config address) (fun _ _ => False) d := by
  refine wp_bind (wp_unwrap fun addr exactly => wp_bind (wp_read ?_))
  have same := Overflow.fit_some ((access.exactAddr_eq rfl).symm.trans exactly)
  split
  · refine wp_bind (wp_unwrap fun id word => wp_pure ⟨rfl, ?_⟩)
    rw [PcieCfgAccess.read, exactly] at word
    rw [PcieCfgAccess.vendor, ← Option.some.inj word, same]
    rfl
  · exact wp_abort

theorem probe_wp {addresses : List PciAddress} : wp (m.probe overflow config access addresses)
    (fun _ d' => d.Appends d' ((addresses.filter fun address => access.vendor config address ≠ 0xffff).map (·, access)) ∧
      d'.tables = d.tables) (fun _ _ => False) d := by
  induction addresses generalizing d with
  | nil => exact wp_pure ⟨.refl d, rfl⟩
  | cons address rest ih =>
    refine wp_bind (vendorId_wp.mono ?_ fun _ _ => id)
    rintro id _ ⟨rfl, rfl⟩
    refine wp_bind (wp_write (ih.mono (fun _ d' ⟨appends, tables⟩ => ?_) fun _ _ => id))
    by_cases present : access.vendor config address ≠ 0xffff
    · rw [if_pos present] at appends tables
      rw [List.filter_cons, if_pos (decide_eq_true present)]
      exact ⟨(show Devices.Appends _ _ [(address, access)] from ⟨rfl, rfl⟩).trans appends, tables⟩
    · rw [if_neg present] at appends tables
      rw [List.filter_cons, if_neg (by rw [decide_eq_true_eq]; exact present)]
      exact ⟨appends, tables⟩

theorem wp_onTables {α : Type} {x : Prog K Unit α} {Q : α → Devices K → Prop} {E : Unit → Devices K → Prop}
    (run : wp x (fun a k => Q a { d with tables := k }) (fun e k => E e { d with tables := k }) d.tables) :
    wp (onTables x) Q E d := by
  unfold wp onTables at *
  cases out : x d.tables with
  | none => trivial
  | some both =>
    obtain ⟨result, k⟩ := both
    rw [out] at run
    cases result <;> exact run

/-- What is found is appended, entry by entry, up to the first one that
`map_pcie` fails on. -/
theorem initEntries_wp {entries : List McfgEntry} : wp (m.initEntries overflow config entries)
    (fun _ d' => d.Appends d' ((m.mappedEntries overflow d.tables entries).flatMap (McfgEntry.discovered · config)) ∧
      m.mappedEntries overflow d.tables entries = entries)
    (fun _ d' => d.Appends d' ((m.mappedEntries overflow d.tables entries).flatMap (McfgEntry.discovered · config)) ∧
      m.mappedEntries overflow d.tables entries ≠ entries) d := by
  induction entries generalizing d with
  | nil => exact wp_pure ⟨.refl d, rfl⟩
  | cons entry rest ih =>
    refine wp_bind (wp_bind (wp_onTables ((wp_run _ _).mono (fun _ k mapped => ?_) fun _ k failed => ?_)))
    · have more : m.mappedEntries overflow d.tables (entry :: rest) = entry :: m.mappedEntries overflow k rest := by
        rw [mappedEntries, mapped]
      refine probe_wp.mono (fun _ d1 ⟨appends, tables⟩ => ?_) fun _ _ => False.elim
      have first : d.Appends d1 (entry.discovered config) := ⟨appends.pciList, appends.found⟩
      rw [more, List.flatMap_cons]
      refine ih.mono (fun _ d2 ⟨later, all⟩ => ?_) fun _ d2 ⟨later, stops⟩ => ?_
      · rw [tables] at later all
        exact ⟨first.trans later, congrArg _ all⟩
      · rw [tables] at later stops
        exact ⟨first.trans later, fun all => stops (List.cons.inj all).2⟩
    · have stops : m.mappedEntries overflow d.tables (entry :: rest) = [] := by rw [mappedEntries, failed]
      rw [stops]
      exact ⟨⟨(List.append_nil _).symm, (List.append_nil _).symm⟩, (List.cons_ne_nil _ _).symm⟩

theorem pcieInit_wp {mcfg : Option (List McfgEntry)} : wp (m.pcieInit overflow config mcfg)
    (fun _ d' => d.Appends d' ((m.mappedEntries overflow d.tables (mcfg.getD [])).flatMap (McfgEntry.discovered · config)) ∧
      mcfg = some (m.mappedEntries overflow d.tables (mcfg.getD [])))
    (fun _ d' => d.Appends d' ((m.mappedEntries overflow d.tables (mcfg.getD [])).flatMap (McfgEntry.discovered · config)) ∧
      mcfg ≠ some (m.mappedEntries overflow d.tables (mcfg.getD []))) d := by
  refine wp_bind (wp_orFail ?_ ?_)
  · rintro entries rfl
    refine initEntries_wp.mono (fun _ d' ⟨appends, all⟩ => ?_) fun _ d' ⟨appends, stops⟩ => ?_
    · exact ⟨appends, congrArg some all.symm⟩
    · exact ⟨appends, fun all => stops (Option.some.inj all).symm⟩
  · rintro rfl
    exact ⟨.refl d, (Option.some_ne_none _).symm⟩

end Runs

end IdentityMapper

theorem mem_functions {segment : UInt16} {first count : Nat} (bound : first + count ≤ 256) (address : PciAddress) :
    address ∈ functions segment first count ↔
      address.segment = segment ∧ first ≤ address.bus.toNat ∧ address.bus.toNat < first + count := by
  simp only [functions, busFunctions, List.mem_flatMap, List.mem_map, List.mem_range'_1, List.mem_finRange, true_and]
  constructor
  · rintro ⟨bus, ⟨lower, upper⟩, device, function, rfl⟩
    have small : (UInt8.ofNat bus).toNat = bus := UInt8.toNat_ofNat_of_lt' (show bus < 256 by omega)
    exact ⟨rfl, by rw [small]; exact lower, by rw [small]; exact upper⟩
  · rintro ⟨rfl, inside⟩
    exact ⟨address.bus.toNat, inside, address.device, address.function, by rw [UInt8.ofNat_toNat]⟩

theorem busFunctions_nodup (segment : UInt16) (bus : UInt8) : (busFunctions segment bus).Nodup := by
  refine List.nodup_flatMap.mpr ⟨fun device _ => ?_, ?_⟩
  · exact (List.nodup_finRange 8).map fun function function' same => (PciAddress.mk.inj same).2.2.2
  · refine (List.nodup_finRange 32).imp fun {device device'} other address here there => other ?_
    obtain ⟨_, _, rfl⟩ := List.mem_map.mp here
    obtain ⟨_, _, same⟩ := List.mem_map.mp there
    exact (PciAddress.mk.inj same).2.2.1.symm

theorem functions_nodup {segment : UInt16} {first count : Nat} (bound : first + count ≤ 256) :
    (functions segment first count).Nodup := by
  refine List.nodup_flatMap.mpr ⟨fun bus _ => busFunctions_nodup segment _, ?_⟩
  refine (List.nodup_range' 1).imp_of_mem fun {bus bus'} inside inside' other address here there => other ?_
  rw [List.mem_range'_1] at inside inside'
  have numbers (n : Nat) (small : n < 256) (member : address ∈ busFunctions segment (UInt8.ofNat n)) : address.bus.toNat = n := by
    simp only [busFunctions, List.mem_flatMap, List.mem_map] at member
    obtain ⟨_, _, _, _, rfl⟩ := member
    exact UInt8.toNat_ofNat_of_lt' small
  exact (numbers bus (by omega) here).symm.trans (numbers bus' (by omega) there)

namespace McfgEntry

/-- The functions of the buses of an entry; ACPI counts the last bus. -/
def Describes (entry : McfgEntry) (address : PciAddress) : Prop :=
  address.segment = entry.pciSegmentGroup ∧ entry.busNumberStart ≤ address.bus ∧ address.bus ≤ entry.busNumberEnd

section
variable {entry : McfgEntry} {address : PciAddress} {config : Mem}

theorem functions_bound (entry : McfgEntry) :
    entry.busNumberStart.toNat + (entry.busNumberEnd.toNat - entry.busNumberStart.toNat) ≤ 256 := by
  have first := entry.busNumberStart.toNat_lt
  have last := entry.busNumberEnd.toNat_lt
  omega

theorem mem_functions_iff : address ∈ entry.functions ↔ entry.Describes address ∧ address.bus ≠ entry.busNumberEnd := by
  rw [functions, mem_functions entry.functions_bound, Describes, UInt8.le_iff_toNat_le, UInt8.le_iff_toNat_le, ne_eq,
    ← UInt8.toNat_inj, and_assoc]
  refine and_congr_right fun _ => ?_
  omega

theorem discovered_fst (entry : McfgEntry) (config : Mem) : (entry.discovered config).map Prod.fst =
    entry.functions.filter fun address => entry.access.vendor config address ≠ 0xffff := by
  rw [discovered, List.map_map]
  exact List.map_id _

theorem mem_discovered_fst : address ∈ (entry.discovered config).map Prod.fst ↔
    address ∈ entry.functions ∧ entry.access.vendor config address ≠ 0xffff := by
  rw [discovered_fst, List.mem_filter, decide_eq_true_eq]

theorem discovered_nodup (entry : McfgEntry) (config : Mem) : ((entry.discovered config).map Prod.fst).Nodup := by
  rw [discovered_fst]
  exact (functions_nodup entry.functions_bound).filter _

end

end McfgEntry

/-- No function belongs to both entries. -/
def McfgEntry.Apart (entry other : McfgEntry) : Prop := ∀ address, entry.Describes address → ¬other.Describes address

instance : Std.Symm McfgEntry.Apart where
  symm _ _ apart address there here := apart address here there

/-- What is found is exactly what the entries describe, each function once. -/
structure Enumerated (config : Mem) (entries : List McfgEntry) (new : List PciAddress) : Prop where
  nodup : new.Nodup
  exact : ∀ address, address ∈ new ↔ ∃ entry ∈ entries, entry.Describes address ∧ entry.access.vendor config address ≠ 0xffff

/-- The scans of the entries find a function twice just when two of them reach
it. -/
theorem discovered_nodup_iff {config : Mem} {entries : List McfgEntry} :
    (entries.flatMap fun entry => (entry.discovered config).map Prod.fst).Nodup ↔ entries.Pairwise fun entry other =>
      ∀ address ∈ entry.functions, address ∈ other.functions →
        entry.access.vendor config address = 0xffff ∨ other.access.vendor config address = 0xffff := by
  rw [List.nodup_flatMap, and_iff_right fun entry _ => entry.discovered_nodup config]
  refine ⟨List.Pairwise.imp fun {entry other} apart address here there => ?_,
    List.Pairwise.imp fun {entry other} apart address here there => ?_⟩
  · by_contra both
    obtain ⟨present, present'⟩ := not_or.mp both
    exact apart (McfgEntry.mem_discovered_fst.mpr ⟨here, present⟩) (McfgEntry.mem_discovered_fst.mpr ⟨there, present'⟩)
  · obtain ⟨inside, present⟩ := McfgEntry.mem_discovered_fst.mp here
    obtain ⟨inside', present'⟩ := McfgEntry.mem_discovered_fst.mp there
    exact (apart address inside inside').elim present present'

namespace IdentityMapper

section
variable {K : Type} {m : IdentityMapper K} [∀ k f, Decidable (m.mapped k f)] {overflow : Overflow} {config : Mem}
  {entries : List McfgEntry}

/-- The enumeration is exact just when no function sits on the last bus of an
entry. -/
theorem enumeration_exact_iff {d d' : Devices K} (disjoint : entries.Pairwise McfgEntry.Apart)
    (run : m.pcieInit overflow config (some entries) d = some (.ok (), d')) :
    (∃ new, d'.pciList = d.pciList ++ new ∧ Enumerated config entries new) ↔
      ∀ entry ∈ entries, ∀ address, entry.Describes address → address.bus = entry.busNumberEnd →
        entry.access.vendor config address = 0xffff := by
  obtain ⟨appends, all⟩ := (initEntries_wp (d := d)).ok run
  rw [all] at appends
  have listed := appends.pciList
  rw [List.map_flatMap] at listed
  constructor
  · rintro ⟨new, same, enumerated⟩ entry member address describes last
    obtain rfl : _ = new := List.append_cancel_left (listed.symm.trans same)
    by_contra present
    obtain ⟨other, member', found⟩ := List.mem_flatMap.mp ((enumerated.exact address).mpr ⟨entry, member, describes, present⟩)
    obtain ⟨inside, _⟩ := McfgEntry.mem_discovered_fst.mp found
    obtain ⟨describes', before⟩ := McfgEntry.mem_functions_iff.mp inside
    by_cases same : entry = other
    · exact before (same ▸ last)
    · exact disjoint.forall member member' same address describes describes'
  · intro none
    refine ⟨_, listed, discovered_nodup_iff.mpr ?_, fun address => ?_⟩
    · refine disjoint.imp fun apart address here there => ?_
      exact absurd (McfgEntry.mem_functions_iff.mp there).1 (apart address (McfgEntry.mem_functions_iff.mp here).1)
    · rw [List.mem_flatMap]
      refine exists_congr fun entry => and_congr_right fun member => ?_
      rw [McfgEntry.mem_discovered_fst, McfgEntry.mem_functions_iff]
      refine ⟨fun ⟨⟨describes, _⟩, present⟩ => ⟨describes, present⟩, fun ⟨describes, present⟩ => ⟨⟨describes, ?_⟩, present⟩⟩
      exact fun last => present (none entry member address describes last)

end

instance (k : List Nat) (f : Nat) : Decidable (listMapper.mapped k f) := inferInstanceAs (Decidable (f ∈ k))

end IdentityMapper

/-- A configuration space with one function, whose registers are at `addr`. -/
def oneFunction (addr : Nat) : Mem := fun x => if x = addr then 0x86 else if x = addr + 1 then 0x80 else 0xff

/-- A host bridge on the first of two buses is found, and nothing else. -/
theorem host_bridge_enumerated : ∃ d', IdentityMapper.listMapper.pcieInit .panics (oneFunction 0xe0000000)
    (some [⟨0xe0000000, 0, 0, 1⟩]) { tables := [] } = some (.ok (), d') ∧ ∃ new, d'.pciList = [] ++ new ∧
      Enumerated (oneFunction 0xe0000000) [⟨0xe0000000, 0, 0, 1⟩] new := by
  obtain ⟨⟨result, d'⟩, run, returned⟩ := Option.map_eq_some_iff.mp (by decide +kernel :
    (IdentityMapper.listMapper.pcieInit .panics (oneFunction 0xe0000000) (some [⟨0xe0000000, 0, 0, 1⟩])
      { tables := [] }).map (fun out => out.1.toOption) = some (some ()))
  cases result with
  | error => cases returned
  | ok =>
    refine ⟨d', run, (IdentityMapper.enumeration_exact_iff (List.pairwise_singleton _ _) run).mpr ?_⟩
    intro entry member address describes last
    obtain rfl := List.mem_singleton.mp member
    have quiet : ∀ address ∈ functions 0 1 1, PcieCfgAccess.vendor ⟨0xe0000000⟩ (oneFunction 0xe0000000) address = 0xffff := by
      decide +kernel
    refine quiet address ((mem_functions (by decide) address).mpr ⟨describes.1, ?_⟩)
    rw [last]
    decide

/-- A function on the second of two buses is not found. -/
theorem last_bus_not_scanned : ∃ d', IdentityMapper.listMapper.pcieInit .panics (oneFunction 0xe0100000)
    (some [⟨0xe0000000, 0, 0, 1⟩]) { tables := [] } = some (.ok (), d') ∧ d'.pciList = [] ∧
      ¬Enumerated (oneFunction 0xe0100000) [⟨0xe0000000, 0, 0, 1⟩] d'.pciList := by
  obtain ⟨⟨result, d'⟩, run, returned⟩ := Option.map_eq_some_iff.mp (by decide +kernel :
    (IdentityMapper.listMapper.pcieInit .panics (oneFunction 0xe0100000) (some [⟨0xe0000000, 0, 0, 1⟩])
      { tables := [] }).map (fun out => (out.1.toOption, out.2.pciList)) = some (some (), []))
  cases result with
  | error => cases returned
  | ok =>
    have empty : d'.pciList = [] := (Prod.mk.inj returned).2
    refine ⟨d', run, empty, fun enumerated => ?_⟩
    rw [empty] at enumerated
    refine List.not_mem_nil ((enumerated.exact ⟨0, 1, 0, 0⟩).mpr ⟨_, List.mem_singleton_self _, ?_, ?_⟩)
    · exact ⟨rfl, by decide, by decide⟩
    · decide +kernel

/-- The vendor id that the ports of the legacy configuration space answer. -/
def PciCfgAccess.vendor (ports : UInt32 → Nat) (address : PciAddress) : Nat :=
  ports (PciCfgAccess.cfg address 0) % 2 ^ 16

/-- The loops of `pci::init`; they count the last bus. -/
def pciInit {K : Type} (ports : UInt32 → Nat) (d : Devices K) : Devices K :=
  (functions 0 0 256).foldl (fun d address =>
    if PciCfgAccess.vendor ports address ≠ 0xffff then { d with pciList := d.pciList ++ [address] } else d) d

/-- What the legacy scan finds. -/
def legacyFunctions (ports : UInt32 → Nat) : List PciAddress :=
  (functions 0 0 256).filter fun address => PciCfgAccess.vendor ports address ≠ 0xffff

theorem pciInit_pciList {K : Type} (ports : UInt32 → Nat) (d : Devices K) :
    (pciInit ports d).pciList = d.pciList ++ legacyFunctions ports := by
  unfold pciInit legacyFunctions
  induction functions 0 0 256 generalizing d with
  | nil => exact (List.append_nil _).symm
  | cons address rest ih =>
    rw [List.foldl_cons, ih, List.filter_cons]
    by_cases present : PciCfgAccess.vendor ports address ≠ 0xffff
    · rw [if_pos present, if_pos (decide_eq_true present), List.append_assoc]
      rfl
    · rw [if_neg present, if_neg (by rw [decide_eq_true_eq]; exact present)]

theorem legacyFunctions_nodup (ports : UInt32 → Nat) : (legacyFunctions ports).Nodup :=
  (functions_nodup (by decide)).filter _

namespace IdentityMapper

section
variable {K : Type} (m : IdentityMapper K) [∀ k f, Decidable (m.mapped k f)] (overflow : Overflow) (config : Mem)
  (ports : UInt32 → Nat)

/-- `devices::init`, with the value of `IS_PCIE`. -/
def devicesInit (mcfg : Option (List McfgEntry)) (d : Devices K) : Option (Bool × Devices K) :=
  match m.pcieInit overflow config mcfg d with
  | none => none
  | some (.error (), d') => some (false, pciInit ports d')
  | some (.ok (), d') => some (true, d')

/-- The fallback starts clean: a failure leaves no function behind, so no
function is listed twice, and the legacy scan is all that counts then. -/
structure CleanFallback (mcfg : Option (List McfgEntry)) (d : Devices K) (isPcie : Bool) (d' : Devices K) : Prop where
  restored : ∀ d1, m.pcieInit overflow config mcfg d = some (.error (), d1) → d1.pciList = d.pciList
  nodup : d'.pciList.Nodup
  legacy : isPcie = false → d'.pciList = legacyFunctions ports

end

section
variable {K : Type} {m : IdentityMapper K} [∀ k f, Decidable (m.mapped k f)] {overflow : Overflow} {config : Mem}
  {ports : UInt32 → Nat} {mcfg : Option (List McfgEntry)}

theorem discovered_flatMap_nil {entries : List McfgEntry} :
    (entries.flatMap fun entry => (entry.discovered config).map Prod.fst) = [] ↔
      ∀ entry ∈ entries, ∀ address ∈ entry.functions, entry.access.vendor config address = 0xffff := by
  rw [List.flatMap_eq_nil_iff]
  refine forall₂_congr fun entry _ => ?_
  rw [McfgEntry.discovered_fst, List.filter_eq_nil_iff]
  refine forall₂_congr fun address _ => ?_
  rw [decide_eq_true_eq, not_not]

/-- The fallback starts clean just when no entry before the first failure of
`map_pcie` has a function on its scanned buses; without a failure, no function
is listed twice just when no two entries reach it. -/
theorem clean_fallback_iff {k : K} {isPcie : Bool} {d' : Devices K}
    (run : m.devicesInit overflow config ports mcfg { tables := k } = some (isPcie, d')) :
    m.CleanFallback overflow config ports mcfg { tables := k } isPcie d' ↔
      (mcfg ≠ some (m.mappedEntries overflow k (mcfg.getD [])) →
        ∀ entry ∈ m.mappedEntries overflow k (mcfg.getD []), ∀ address ∈ entry.functions,
          entry.access.vendor config address = 0xffff) ∧
      (mcfg = some (m.mappedEntries overflow k (mcfg.getD [])) →
        (m.mappedEntries overflow k (mcfg.getD [])).Pairwise fun entry other =>
          ∀ address ∈ entry.functions, address ∈ other.functions →
            entry.access.vendor config address = 0xffff ∨ other.access.vendor config address = 0xffff) := by
  rw [← discovered_nodup_iff, ← discovered_flatMap_nil]
  unfold devicesInit at run
  split at run
  · cases run
  · rename_i d1 failed
    cases run
    obtain ⟨appends, stops⟩ := pcieInit_wp.error failed
    have listed := appends.pciList
    rw [List.map_flatMap] at listed
    rw [and_iff_left fun all => absurd all stops]
    constructor
    · intro clean _
      exact listed.symm.trans (clean.restored d1 failed)
    · intro nothing
      have empty : d1.pciList = [] := listed.trans (nothing stops)
      have same : (pciInit ports d1).pciList = legacyFunctions ports := by rw [pciInit_pciList, empty, List.nil_append]
      refine ⟨fun d2 again => ?_, ?_, fun _ => same⟩
      · cases failed.symm.trans again
        exact empty
      · rw [same]
        exact legacyFunctions_nodup ports
  · rename_i d1 done
    cases run
    obtain ⟨appends, all⟩ := pcieInit_wp.ok done
    have listed := appends.pciList
    rw [List.map_flatMap] at listed
    rw [and_iff_right fun stops => absurd all stops]
    constructor
    · intro clean _
      have nodup := clean.nodup
      rwa [listed] at nodup
    · intro nodup
      refine ⟨fun d2 failed => ?_, ?_, Bool.noConfusion⟩
      · cases done.symm.trans failed
      · rw [listed]
        exact nodup all

end

/-- A mapper that has memory for the page tables of `room` frames only. -/
def boundedMapper (room : Nat) : IdentityMapper (List Nat) where
  mapped k frame := frame ∈ k
  identityMap k frame := if frame ∈ k then .pageAlreadyMapped k else if k.length < room then .ok (frame :: k) else .failed
  ok_mapped := by
    intro k k' frame result f
    split at result
    · cases result
    · split at result <;> cases result
      rw [List.mem_cons, or_comm]
  already_mapped := by
    intro k k' frame result
    split at result
    · rename_i member
      cases result
      exact ⟨fun _ => Iff.rfl, member⟩
    · split at result <;> cases result

instance (room : Nat) (k : List Nat) (f : Nat) : Decidable ((boundedMapper room).mapped k f) :=
  inferInstanceAs (Decidable (f ∈ k))

end IdentityMapper

/-- The ports of a machine with a host bridge only. -/
def hostBridge (cfg : UInt32) : Nat := if cfg = 0x80000000 then 0x8086 else 0xffffffff

theorem PcieCfgAccess.vendor_absent (access : PcieCfgAccess) (address : PciAddress) :
    access.vendor (fun _ => 0xff) address = 0xffff := by
  simp only [vendor, Mem.load]
  decide

/-- Of two segments the first is empty and the second cannot be mapped: what is
listed is what the legacy scan finds. -/
theorem empty_segment_fallback : ∃ d', (IdentityMapper.boundedMapper 1).devicesInit .panics (fun _ => 0xff) hostBridge
    (some [⟨0xe0000000, 1, 0, 1⟩, ⟨0xd0000000, 2, 0, 1⟩]) { tables := [] } = some (false, d') ∧
      (IdentityMapper.boundedMapper 1).CleanFallback .panics (fun _ => 0xff) hostBridge
        (some [⟨0xe0000000, 1, 0, 1⟩, ⟨0xd0000000, 2, 0, 1⟩]) { tables := [] } false d' := by
  obtain ⟨⟨result, d1⟩, failed, returned⟩ := Option.map_eq_some_iff.mp (by decide +kernel :
    ((IdentityMapper.boundedMapper 1).pcieInit .panics (fun _ => 0xff)
      (some [⟨0xe0000000, 1, 0, 1⟩, ⟨0xd0000000, 2, 0, 1⟩]) { tables := [] }).map (fun out => out.1.toOption) = some none)
  cases result with
  | ok => cases returned
  | error =>
    have run : (IdentityMapper.boundedMapper 1).devicesInit .panics (fun _ => 0xff) hostBridge
        (some [⟨0xe0000000, 1, 0, 1⟩, ⟨0xd0000000, 2, 0, 1⟩]) { tables := [] } = some (false, pciInit hostBridge d1) := by
      rw [IdentityMapper.devicesInit, failed]
    refine ⟨_, run, (IdentityMapper.clean_fallback_iff run).mpr ⟨fun _ entry _ => ?_, fun _ => ?_⟩⟩
    · exact fun address _ => entry.access.vendor_absent address
    · exact List.pairwise_of_forall fun entry other address _ _ => Or.inl (entry.access.vendor_absent address)

/-- Of two segments the first has a host bridge and the second cannot be mapped:
the host bridge is listed twice. -/
theorem late_failure_lists_twice : ∃ d', (IdentityMapper.boundedMapper 1).devicesInit .panics (oneFunction 0xe0000000)
    hostBridge (some [⟨0xe0000000, 0, 0, 1⟩, ⟨0xd0000000, 1, 0, 1⟩]) { tables := [] } = some (false, d') ∧
      ¬d'.pciList.Nodup := by
  obtain ⟨⟨result, d1⟩, failed, returned⟩ := Option.map_eq_some_iff.mp (by decide +kernel :
    ((IdentityMapper.boundedMapper 1).pcieInit .panics (oneFunction 0xe0000000)
      (some [⟨0xe0000000, 0, 0, 1⟩, ⟨0xd0000000, 1, 0, 1⟩]) { tables := [] }).map
        (fun out => (out.1.toOption, out.2.pciList)) = some (none, [⟨0, 0, 0, 0⟩]))
  cases result with
  | ok => cases returned
  | error =>
    have listed : d1.pciList = [⟨0, 0, 0, 0⟩] := (Prod.mk.inj returned).2
    refine ⟨pciInit hostBridge d1, by rw [IdentityMapper.devicesInit, failed], fun nodup => ?_⟩
    rw [pciInit_pciList, listed, List.singleton_append, List.nodup_cons] at nodup
    refine nodup.1 (List.mem_filter.mpr ⟨(mem_functions (by decide) _).mpr ?_, by decide⟩)
    exact ⟨rfl, by decide, by decide⟩

/-- The access that later reads of a segment go through: that of the first entry
with the segment, whatever its buses. -/
def getAccess (mcfg : Option (List McfgEntry)) (segment : UInt16) : Option PcieCfgAccess := do
  let entries ← mcfg
  let entry ← entries.find? fun entry => entry.pciSegmentGroup == segment
  pure entry.access

namespace McfgEntry
variable {entry : McfgEntry} {config : Mem}

theorem mem_discovered {found : PciAddress × PcieCfgAccess} : found ∈ entry.discovered config ↔
    (found.1 ∈ entry.functions ∧ entry.access.vendor config found.1 ≠ 0xffff) ∧ found.2 = entry.access := by
  rw [discovered, List.mem_map]
  constructor
  · rintro ⟨address, member, rfl⟩
    rw [List.mem_filter, decide_eq_true_eq] at member
    exact ⟨member, rfl⟩
  · rintro ⟨member, same⟩
    exact ⟨found.1, List.mem_filter.mpr ⟨member.1, decide_eq_true member.2⟩, Prod.ext rfl same.symm⟩

end McfgEntry

/-- An entry is what its segment is accessed through just when it has the base of
the first entry of the segment. -/
theorem getAccess_eq {entries : List McfgEntry} {entry : McfgEntry} (member : entry ∈ entries) :
    getAccess (some entries) entry.pciSegmentGroup = some entry.access ↔
      ∀ first, entries.find? (fun other => other.pciSegmentGroup == entry.pciSegmentGroup) = some first →
        first.baseAddress = entry.baseAddress := by
  have exists_first : (entries.find? fun other => other.pciSegmentGroup == entry.pciSegmentGroup).isSome :=
    List.find?_isSome.mpr ⟨entry, member, beq_self_eq_true _⟩
  obtain ⟨first, found⟩ := Option.isSome_iff_exists.mp exists_first
  have access : getAccess (some entries) entry.pciSegmentGroup = some first.access := by
    rw [getAccess, Option.bind_eq_bind, Option.bind_some, found]
    rfl
  rw [access, found]
  constructor
  · rintro same _ ⟨⟩
    exact congrArg PcieCfgAccess.base (Option.some.inj same)
  · intro same
    rw [McfgEntry.access, McfgEntry.access, same first rfl]

namespace IdentityMapper

theorem mappedEntries_subset {K : Type} {m : IdentityMapper K} {overflow : Overflow} {entries : List McfgEntry} {k : K} :
    m.mappedEntries overflow k entries ⊆ entries := by
  induction entries generalizing k with
  | nil => exact List.Subset.refl _
  | cons entry rest ih =>
    rw [mappedEntries]
    split
    · exact List.cons_subset_cons entry ih
    · exact List.nil_subset _

section
variable {K : Type} {m : IdentityMapper K} [∀ k f, Decidable (m.mapped k f)] {overflow : Overflow} {config : Mem}
  {entries : List McfgEntry}

/-- The functions that were found are later accessed through the same base just
when each mapped entry that has one has the base of the first entry of its
segment. -/
theorem same_access_iff {k : K} {result : Except Unit Unit} {d' : Devices K}
    (run : m.pcieInit overflow config (some entries) { tables := k } = some (result, d')) :
    d'.pciList = d'.found.map Prod.fst ∧
      ((∀ found ∈ d'.found, getAccess (some entries) found.1.segment = some found.2) ↔
        ∀ entry ∈ m.mappedEntries overflow k entries,
          (∃ address ∈ entry.functions, entry.access.vendor config address ≠ 0xffff) →
            ∀ first, entries.find? (fun other => other.pciSegmentGroup == entry.pciSegmentGroup) = some first →
              first.baseAddress = entry.baseAddress) := by
  have appends : Devices.Appends { tables := k } d'
      ((m.mappedEntries overflow k entries).flatMap (McfgEntry.discovered · config)) := by
    cases result with
    | ok => exact (pcieInit_wp.ok run).1
    | error => exact (pcieInit_wp.error run).1
  have found : d'.found = (m.mappedEntries overflow k entries).flatMap (McfgEntry.discovered · config) := appends.found
  refine ⟨by rw [found]; exact appends.pciList, ?_⟩
  rw [found]
  constructor
  · rintro same entry member ⟨address, inside, present⟩
    refine (getAccess_eq (mappedEntries_subset member)).mp ?_
    rw [← (McfgEntry.mem_functions_iff.mp inside).1.1]
    exact same (address, entry.access)
      (List.mem_flatMap.mpr ⟨entry, member, McfgEntry.mem_discovered.mpr ⟨⟨inside, present⟩, rfl⟩⟩)
  · intro same found listed
    obtain ⟨entry, member, here⟩ := List.mem_flatMap.mp listed
    obtain ⟨⟨inside, present⟩, through⟩ := McfgEntry.mem_discovered.mp here
    rw [through, (McfgEntry.mem_functions_iff.mp inside).1.1]
    exact (getAccess_eq (mappedEntries_subset member)).mpr (same entry member ⟨found.1, inside, present⟩)

end

end IdentityMapper

/-- With one entry, a host bridge is accessed through the base it was found
through. -/
theorem host_bridge_same_access : ∃ d', IdentityMapper.listMapper.pcieInit .panics (oneFunction 0xe0000000)
    (some [⟨0xe0000000, 0, 0, 1⟩]) { tables := [] } = some (.ok (), d') ∧ d'.found = [(⟨0, 0, 0, 0⟩, ⟨0xe0000000⟩)] ∧
      ∀ found ∈ d'.found, getAccess (some [⟨0xe0000000, 0, 0, 1⟩]) found.1.segment = some found.2 := by
  obtain ⟨⟨result, d'⟩, run, returned⟩ := Option.map_eq_some_iff.mp (by decide +kernel :
    (IdentityMapper.listMapper.pcieInit .panics (oneFunction 0xe0000000) (some [⟨0xe0000000, 0, 0, 1⟩])
      { tables := [] }).map (fun out => (out.1.toOption, out.2.found)) =
        some (some (), [(⟨0, 0, 0, 0⟩, ⟨0xe0000000⟩)]))
  cases result with
  | error => cases returned
  | ok =>
    refine ⟨d', run, (Prod.mk.inj returned).2, (IdentityMapper.same_access_iff run).2.mpr ?_⟩
    intro entry member _ first found
    obtain rfl := List.mem_singleton.mp (IdentityMapper.mappedEntries_subset member)
    obtain rfl := List.mem_singleton.mp (List.mem_of_find?_eq_some found)
    rfl

/-- A segment over two entries: a function of the second one is accessed through
the base of the first. -/
theorem split_segment_other_base : ∃ d', IdentityMapper.listMapper.pcieInit .panics (oneFunction 0xd0100000)
    (some [⟨0xe0000000, 0, 0, 0⟩, ⟨0xd0000000, 0, 1, 2⟩]) { tables := [] } = some (.ok (), d') ∧
      d'.pciList = [⟨0, 1, 0, 0⟩] ∧ d'.found = [(⟨0, 1, 0, 0⟩, ⟨0xd0000000⟩)] ∧
        getAccess (some [⟨0xe0000000, 0, 0, 0⟩, ⟨0xd0000000, 0, 1, 2⟩]) 0 = some ⟨0xe0000000⟩ := by
  obtain ⟨⟨result, d'⟩, run, returned⟩ := Option.map_eq_some_iff.mp (by decide +kernel :
    (IdentityMapper.listMapper.pcieInit .panics (oneFunction 0xd0100000)
      (some [⟨0xe0000000, 0, 0, 0⟩, ⟨0xd0000000, 0, 1, 2⟩]) { tables := [] }).map
        (fun out => (out.1.toOption, out.2.pciList, out.2.found)) =
          some (some (), [⟨0, 1, 0, 0⟩], [(⟨0, 1, 0, 0⟩, ⟨0xd0000000⟩)]))
  cases result with
  | error => cases returned
  | ok =>
    have lists := Prod.mk.inj (Prod.mk.inj returned).2
    exact ⟨d', run, lists.1, lists.2, rfl⟩

end ProkaKernel
