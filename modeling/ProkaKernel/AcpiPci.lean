import ProkaKernel.PcieScan

namespace ProkaKernel

/-- What `IS_PCIE` tells: the configuration space is in memory, where the MCFG
table says, or behind the ports of legacy PCI. -/
inductive PciBus
  | pcie (mcfg : Option (List McfgEntry))
  | pci

/-- The widths of an access by ACPI. -/
inductive PciWidth
  | u8
  | u16
  | u32

def PciWidth.bytes : PciWidth → Nat
  | .u8 => 1
  | .u16 => 2
  | .u32 => 4

/-- The identity mapping with the rights of its pages: those of `map_pcie` can be
written to, those of `map_physical_region` cannot. -/
structure RightsMapper (K : Type) extends IdentityMapper K where
  writable : K → Nat → Prop
  writable_mapped : ∀ {k f}, writable k f → mapped k f

/-- The first and the last byte of the four at an address are in such pages. -/
def OnPages (page : Nat → Prop) (addr : Nat) : Prop := page (addr / 0x200000) ∧ page ((addr + 3) / 0x200000)

instance {page : Nat → Prop} [DecidablePred page] {addr : Nat} : Decidable (OnPages page addr) :=
  inferInstanceAs (Decidable (_ ∧ _))

/-- The four bytes at an address can be accessed: those in memory are in such pages. -/
def PciBus.Reaches (bus : PciBus) (page : Nat → Prop) (addr : Nat) : Prop :=
  match bus with
  | .pcie _ => OnPages page addr
  | .pci => True

instance {bus : PciBus} {page : Nat → Prop} [DecidablePred page] {addr : Nat} : Decidable (bus.Reaches page addr) :=
  match bus with
  | .pcie _ => inferInstanceAs (Decidable (OnPages page addr))
  | .pci => inferInstanceAs (Decidable True)

namespace AcpiHandler

section
variable {K : Type} (m : RightsMapper K) (tables : K) [DecidablePred (m.mapped tables)] [DecidablePred (m.writable tables)]
  (overflow : Overflow) (bus : PciBus) (space : Mem) (address : PciAddress) (offset : UInt16)

/-- The address of the four bytes that `read_pci` and `write_pci` access. A byte
behind the ports has the word that selects it as its address. -/
def pciAddr : Option Nat :=
  match bus with
  | .pcie mcfg => do
    let access ← getAccess mcfg address.segment
    access.exactAddr overflow address offset
  | .pci => some (PciCfgAccess.cfg address offset).toNat

/-- The kernel does not survive a fault on a page that is not mapped. -/
def readPci : Option Nat :=
  match bus with
  | .pcie mcfg => do
    let access ← getAccess mcfg address.segment
    let addr ← access.exactAddr overflow address offset
    if OnPages (m.mapped tables) addr then access.read overflow address space offset else none
  | .pci => some (space.load (PciCfgAccess.cfg address offset).toNat 4)

def writePci (value : UInt32) : Option Mem :=
  match bus with
  | .pcie mcfg => do
    let access ← getAccess mcfg address.segment
    let addr ← access.exactAddr overflow address offset
    if OnPages (m.writable tables) addr then access.write overflow address space offset value else none
  | .pci => some (space.store (PciCfgAccess.cfg address offset).toNat 4 value.toNat)

/-- A read is cut to its width, and what is written is extended to four bytes. -/
def readPciAs (width : PciWidth) : Option Nat :=
  (readPci m tables overflow bus space address offset).map (· % 256 ^ width.bytes)

def writePciAs (value : Nat) : Option Mem := writePci m tables overflow bus space address offset (UInt32.ofNat value)

def readPciU8 : Option Nat := readPciAs m tables overflow bus space address offset .u8

def readPciU16 : Option Nat := readPciAs m tables overflow bus space address offset .u16

def readPciU32 : Option Nat := readPciAs m tables overflow bus space address offset .u32

def writePciU8 (value : UInt8) : Option Mem := writePciAs m tables overflow bus space address offset value.toNat

def writePciU16 (value : UInt16) : Option Mem := writePciAs m tables overflow bus space address offset value.toNat

def writePciU32 (value : UInt32) : Option Mem := writePciAs m tables overflow bus space address offset value.toNat

end

/-- The address of a byte of a function's configuration space, if it is there:
the segment must be in the table, and the address must be one of 64 bits. -/
def place (bus : PciBus) (address : PciAddress) (offset : Nat) : Option Nat :=
  match bus with
  | .pcie mcfg => do
    let access ← getAccess mcfg address.segment
    if access.register address offset < 2 ^ 64 then some (access.register address offset) else none
  | .pci => some (2 ^ 31 + address.bus.toNat * 2 ^ 16 + address.device * 2 ^ 11 + address.function * 2 ^ 8 + offset)

section
variable {K : Type} (m : RightsMapper K) (tables : K) [DecidablePred (m.mapped tables)] [DecidablePred (m.writable tables)]

/-- A read returns the bytes at its offset. -/
def ReadsExactly (overflow : Overflow) (bus : PciBus) (space : Mem) (address : PciAddress) (offset : UInt16)
    (width : PciWidth) : Prop :=
  ∃ p, place bus address offset.toNat = some p ∧
    readPciAs m tables overflow bus space address offset width = some (space.load p width.bytes)

/-- A write changes the bytes at its offset, and no others. -/
def WritesExactly (overflow : Overflow) (bus : PciBus) (space : Mem) (address : PciAddress) (offset : UInt16)
    (width : PciWidth) (value : Nat) : Prop :=
  ∃ p space', place bus address offset.toNat = some p ∧
    writePciAs m tables overflow bus space address offset value = some space' ∧
    space'.load p width.bytes = value ∧ ∀ x, ¬(p ≤ x ∧ x < p + width.bytes) → space' x = space x

end

section
variable {K : Type} {m : RightsMapper K} {tables : K} {overflow : Overflow} {bus : PciBus}
  {space : Mem} {address : PciAddress} {offset : UInt16} {width : PciWidth}

theorem readPci_eq [DecidablePred (m.mapped tables)] : readPci m tables overflow bus space address offset =
    (pciAddr overflow bus address offset).bind fun addr =>
      if bus.Reaches (m.mapped tables) addr then some (space.load addr 4) else none := by
  cases bus with
  | pci => simp only [readPci, pciAddr, Option.bind_some, show PciBus.pci.Reaches _ _ from trivial, if_true]
  | pcie mcfg =>
    simp only [readPci, pciAddr, Option.bind_eq_bind, Option.bind_assoc, PcieCfgAccess.read]
    refine Option.bind_congr fun access _ => Option.bind_congr fun addr exactly => ?_
    rw [exactly, Option.map_some]
    rfl

theorem writePci_eq [DecidablePred (m.writable tables)] {value : UInt32} :
    writePci m tables overflow bus space address offset value =
    (pciAddr overflow bus address offset).bind fun addr =>
      if bus.Reaches (m.writable tables) addr then some (space.store addr 4 value.toNat) else none := by
  cases bus with
  | pci => simp only [writePci, pciAddr, Option.bind_some, show PciBus.pci.Reaches _ _ from trivial, if_true]
  | pcie mcfg =>
    simp only [writePci, pciAddr, Option.bind_eq_bind, Option.bind_assoc, PcieCfgAccess.write]
    refine Option.bind_congr fun access _ => Option.bind_congr fun addr exactly => ?_
    rw [exactly, Option.map_some]
    rfl

theorem pciAddr_pcie {mcfg : Option (List McfgEntry)} {access : PcieCfgAccess}
    (found : getAccess mcfg address.segment = some access) :
    pciAddr overflow (.pcie mcfg) address offset = access.exactAddr overflow address offset := by
  change (getAccess mcfg address.segment).bind _ = _
  rw [found, Option.bind_some]

/-- Every access goes to the four aligned bytes around its offset. -/
theorem pciAddr_of_place (overflow : Overflow) {p : Nat} (small : offset.toNat < 0x100)
    (there : place bus address offset.toNat = some p) :
    pciAddr overflow bus address offset = some (p - offset.toNat % 4) ∧ offset.toNat % 4 ≤ p := by
  have low : offset.toNat % 256 - offset.toNat % 4 = offset.toNat - offset.toNat % 4 := by omega
  cases bus with
  | pci =>
    simp only [place, Option.some.injEq] at there
    simp only [pciAddr, cfg_toNat, Option.some.injEq]
    omega
  | pcie mcfg =>
    obtain ⟨access, found, there⟩ := Option.bind_eq_some_iff.mp there
    split at there
    · rename_i fits
      cases there
      have below : access.register address (offset.toNat - offset.toNat % 4) =
          access.register address offset.toNat - offset.toNat % 4 := by
        unfold PcieCfgAccess.register
        omega
      refine ⟨?_, by unfold PcieCfgAccess.register; omega⟩
      rw [pciAddr_pcie found, PcieCfgAccess.exactAddr_masked, low, ← below]
      exact overflow.fit_of_lt (by omega)
    · cases there

theorem bytes_le (width : PciWidth) : width.bytes ≤ 4 := by
  cases width <;> decide

theorem reads_iff [DecidablePred (m.mapped tables)] (small : offset.toNat < 0x100) :
    ReadsExactly m tables overflow bus space address offset width ↔
    ∃ p, place bus address offset.toNat = some p ∧ bus.Reaches (m.mapped tables) (p - offset.toNat % 4) ∧
      space.load (p - offset.toNat % 4) width.bytes = space.load p width.bytes := by
  refine exists_congr fun p => and_congr_right fun there => ?_
  obtain ⟨addr, _⟩ := pciAddr_of_place overflow small there
  rw [readPciAs, readPci_eq, addr, Option.bind_some]
  by_cases reached : bus.Reaches (m.mapped tables) (p - offset.toNat % 4)
  · simp only [reached, if_true, true_and, Option.map_some, space.load_mod _ (bytes_le width), Option.some.injEq]
  · simp only [reached, if_false, false_and, Option.map_none, reduceCtorEq]

/-- The bytes above a small value are zero. -/
theorem store_above {a w value x : Nat} (fits : value < 256 ^ w) (above : a + w ≤ x) (inside : x < a + 4) :
    space.store a 4 value x = 0 := by
  have power : 256 ^ w ≤ 256 ^ (x - a) := Nat.pow_le_pow_right (by decide) (by omega)
  have zero : value / 256 ^ (x - a) = 0 := Nat.div_eq_of_lt (Nat.lt_of_lt_of_le fits power)
  rw [Mem.store, if_pos (by omega), zero]
  rfl

theorem load_store_low {a w value : Nat} (le : w ≤ 4) (fits : value < 256 ^ w) :
    (space.store a 4 value).load a w = value := by
  have power : 256 ^ w ≤ 256 ^ 4 := Nat.pow_le_pow_right (by decide) le
  rw [← Mem.load_mod _ a le, Mem.load_store, Nat.mod_eq_of_lt (Nat.lt_of_lt_of_le fits power), Nat.mod_eq_of_lt fits]

/-- A write to the four bytes at `d` is one to the bytes at `p` alone: the value
has to be where it is read, or zero, and the other bytes have to be zero. -/
theorem store_exactly_iff (space : Mem) (d : Nat) {w value lane : Nat} (le : w ≤ 4) (fits : value < 256 ^ w)
    (aligned : lane = 0 ∨ w ≤ lane) (inside : lane + w ≤ 4) :
    (space.store d 4 value).load (d + lane) w = value ∧
        (∀ x, ¬(d + lane ≤ x ∧ x < d + lane + w) → space.store d 4 value x = space x) ↔
      (lane = 0 ∨ value = 0) ∧ ∀ x, d ≤ x → x < d + 4 → ¬(d + lane ≤ x ∧ x < d + lane + w) → space x = 0 := by
  by_cases start : lane = 0
  · subst start
    rw [Nat.add_zero]
    constructor
    · rintro ⟨_, kept⟩
      refine ⟨.inl rfl, fun x lower upper outside => ?_⟩
      rw [← kept x outside]
      exact store_above fits (by omega) upper
    · rintro ⟨_, zero⟩
      refine ⟨load_store_low le fits, fun x outside => ?_⟩
      by_cases here : d ≤ x ∧ x < d + 4
      · rw [zero x here.1 here.2 outside]
        exact store_above fits (by omega) here.2
      · exact if_neg here
  · have above := aligned.resolve_left start
    have zeroed : (space.store d 4 value).load (d + lane) w = 0 :=
      Mem.load_zero fun x lower upper => store_above fits (by omega) (by omega)
    rw [zeroed]
    constructor
    · rintro ⟨none, kept⟩
      subst none
      refine ⟨.inr rfl, fun x lower upper outside => ?_⟩
      rw [← kept x outside, Mem.store, if_pos ⟨lower, upper⟩, Nat.zero_div]
      rfl
    · rintro ⟨value_zero, zero⟩
      have none := value_zero.resolve_left start
      subst none
      refine ⟨rfl, fun x outside => ?_⟩
      by_cases here : d ≤ x ∧ x < d + 4
      · rw [zero x here.1 here.2 outside, Mem.store, if_pos here, Nat.zero_div]
        rfl
      · exact if_neg here

/-- Where an access of a width can be in its four bytes. -/
theorem lane_of_aligned (aligned : offset.toNat % width.bytes = 0) :
    (offset.toNat % 4 = 0 ∨ width.bytes ≤ offset.toNat % 4) ∧ offset.toNat % 4 + width.bytes ≤ 4 := by
  cases width with
  | u8 =>
    simp only [PciWidth.bytes]
    omega
  | u16 =>
    simp only [PciWidth.bytes] at aligned ⊢
    omega
  | u32 =>
    simp only [PciWidth.bytes] at aligned ⊢
    omega

theorem writes_iff [DecidablePred (m.writable tables)] {value : Nat} (small : offset.toNat < 0x100)
    (aligned : offset.toNat % width.bytes = 0) (fits : value < 256 ^ width.bytes) :
    WritesExactly m tables overflow bus space address offset width value ↔
    (offset.toNat % 4 = 0 ∨ value = 0) ∧ ∃ p, place bus address offset.toNat = some p ∧
      bus.Reaches (m.writable tables) (p - offset.toNat % 4) ∧
      ∀ x, p - offset.toNat % 4 ≤ x → x < p - offset.toNat % 4 + 4 → ¬(p ≤ x ∧ x < p + width.bytes) → space x = 0 := by
  obtain ⟨lane, inside⟩ := lane_of_aligned aligned
  have power : 256 ^ width.bytes ≤ 256 ^ 4 := Nat.pow_le_pow_right (by decide) (bytes_le width)
  have word : (UInt32.ofNat value).toNat = value := UInt32.toNat_ofNat_of_lt' (Nat.lt_of_lt_of_le fits power)
  have exact_iff : ∀ {p}, place bus address offset.toNat = some p →
      ((∃ space', writePciAs m tables overflow bus space address offset value = some space' ∧
        space'.load p width.bytes = value ∧ ∀ x, ¬(p ≤ x ∧ x < p + width.bytes) → space' x = space x) ↔
      bus.Reaches (m.writable tables) (p - offset.toNat % 4) ∧ (offset.toNat % 4 = 0 ∨ value = 0) ∧
      ∀ x, p - offset.toNat % 4 ≤ x → x < p - offset.toNat % 4 + 4 → ¬(p ≤ x ∧ x < p + width.bytes) → space x = 0) := by
    intro p there
    obtain ⟨addr, le⟩ := pciAddr_of_place overflow small there
    have stored := store_exactly_iff space (p - offset.toNat % 4) (bytes_le width) fits lane inside
    rw [Nat.sub_add_cancel le] at stored
    rw [writePciAs, writePci_eq, addr, Option.bind_some, word]
    by_cases reached : bus.Reaches (m.writable tables) (p - offset.toNat % 4)
    · simp only [reached, if_true, true_and, Option.some.injEq, exists_eq_left']
      exact stored
    · simp only [reached, if_false, false_and, reduceCtorEq, exists_false]
  constructor
  · rintro ⟨p, space', there, rest⟩
    obtain ⟨reached, value_zero, zero⟩ := (exact_iff there).mp ⟨space', rest⟩
    exact ⟨value_zero, p, there, reached, zero⟩
  · rintro ⟨value_zero, p, there, reached, zero⟩
    obtain ⟨space', rest⟩ := (exact_iff there).mpr ⟨reached, value_zero, zero⟩
    exact ⟨p, space', there, rest⟩

end

/-- The mapped pages in a list, all of which can be written to. -/
def listRights : RightsMapper (List Nat) where
  toIdentityMapper := IdentityMapper.listMapper
  writable k f := f ∈ k
  writable_mapped := id

instance (k : List Nat) : DecidablePred (listRights.mapped k) := fun f => inferInstanceAs (Decidable (f ∈ k))

instance (k : List Nat) : DecidablePred (listRights.writable k) := fun f => inferInstanceAs (Decidable (f ∈ k))

end AcpiHandler

end ProkaKernel
