import ProkaKernel.Overflow
import ProkaKernel.PhysMem

namespace ProkaKernel

/-- A function on a PCI bus (`pci_types::PciAddress`). -/
structure PciAddress where
  segment : UInt16
  bus : UInt8
  device : Fin 32
  function : Fin 8
deriving DecidableEq

/-- The configuration space in memory (PCIe). -/
structure PcieCfgAccess where
  base : UInt64
deriving DecidableEq

namespace PcieCfgAccess

section
variable (overflow : Overflow) (access : PcieCfgAccess) (address : PciAddress)

/-- The address that `read` and `write` compute. -/
def exactAddr (offset : UInt16) : Option Nat := do
  let bus ← overflow.fit 64 (access.base.toNat + address.bus.toNat * 0x100000)
  let device ← overflow.fit 64 (bus + address.device * 0x8000)
  let pciBase ← overflow.fit 64 (device + address.function * 0x1000)
  let offsetAligned := offset &&& 0xfc
  overflow.fit 64 (pciBase + offsetAligned.toNat)

def read (mem : Mem) (offset : UInt16) : Option Nat := (access.exactAddr overflow address offset).map fun addr => mem.load addr 4

def write (mem : Mem) (offset : UInt16) (value : UInt32) : Option Mem :=
  (access.exactAddr overflow address offset).map fun addr => mem.store addr 4 value.toNat

end

/-- The address of a register in the enhanced configuration space. -/
def register (access : PcieCfgAccess) (address : PciAddress) (offset : Nat) : Nat :=
  access.base.toNat + address.bus.toNat * 2 ^ 20 + address.device * 2 ^ 15 + address.function * 2 ^ 12 + offset

end PcieCfgAccess

/-- The word that the legacy accessor writes to port `0xcf8`. -/
def PciCfgAccess.cfg (address : PciAddress) (offset : UInt16) : UInt32 :=
  (0x80000000 : UInt32) ||| address.bus.toUInt32 <<< 16 ||| UInt32.ofNat address.device <<< 11 |||
    UInt32.ofNat address.function <<< 8 ||| (offset.toUInt32 &&& 0xfc)

/-- A register of the configuration space of a segment. -/
structure ConfigRegister where
  bus : Nat
  device : Nat
  function : Nat
  offset : Nat

/-- The register at an address of the enhanced configuration space. -/
def ecamRegister (base addr : Nat) : ConfigRegister :=
  let n := addr - base
  ⟨n / 2 ^ 20, n / 2 ^ 15 % 2 ^ 5, n / 2 ^ 12 % 2 ^ 3, n % 2 ^ 12⟩

/-- The register that a word in port `0xcf8` selects. -/
def legacyRegister (cfg : UInt32) : ConfigRegister :=
  let n := cfg.toNat
  ⟨n / 2 ^ 16 % 2 ^ 8, n / 2 ^ 11 % 2 ^ 5, n / 2 ^ 8 % 2 ^ 3, n % 2 ^ 8⟩

theorem and_fc (n : Nat) : n &&& 0xfc = n % 256 - n % 4 := by
  have small : ∀ r < 256, r &&& 0xfc = r - r % 4 := by decide +kernel
  have low : n &&& 0xfc = n % 256 &&& 0xfc := by
    rw [show n % 256 = n &&& 255 from (Nat.and_two_pow_sub_one_eq_mod n 8).symm, Nat.and_assoc]
    rfl
  rw [low, small _ (Nat.mod_lt _ (by decide))]
  omega

theorem or_below {a b i : Nat} (below : b < 2 ^ i) : a * 2 ^ i ||| b = a * 2 ^ i + b := by
  rw [← Nat.shiftLeft_eq]
  exact (Nat.shiftLeft_add_eq_or_of_lt below a).symm

theorem shiftLeft_toNat {x i : UInt32} (shift : i.toNat < 32) (small : x.toNat * 2 ^ i.toNat < 2 ^ 32) :
    (x <<< i).toNat = x.toNat * 2 ^ i.toNat := by
  rw [UInt32.toNat_shiftLeft, Nat.shiftLeft_eq, Nat.mod_eq_of_lt shift]
  exact Nat.mod_eq_of_lt small

section
variable {overflow : Overflow} {access : PcieCfgAccess} {address : PciAddress} {offset : UInt16}

/-- The offset is cut to its lowest byte, and to a multiple of four. -/
theorem offset_masked (offset : UInt16) : (offset &&& 0xfc).toNat = offset.toNat % 256 - offset.toNat % 4 := and_fc _

theorem PcieCfgAccess.exactAddr_masked : access.exactAddr overflow address offset =
    overflow.fit 64 (access.register address (offset.toNat % 256 - offset.toNat % 4)) := by
  unfold exactAddr register
  simp only [Option.bind_eq_bind, Overflow.fit_bind_add, Nat.add_assoc, offset_masked]
  rfl

theorem PcieCfgAccess.exactAddr_eq (aligned : offset.toNat % 4 = 0) :
    access.exactAddr overflow address offset = overflow.fit 64 (access.register address (offset.toNat % 256)) := by
  rw [exactAddr_masked, aligned, Nat.sub_zero]

/-- The fields of the word do not overlap. -/
theorem cfg_toNat (address : PciAddress) (offset : UInt16) : (PciCfgAccess.cfg address offset).toNat =
    2 ^ 31 + address.bus.toNat * 2 ^ 16 + address.device * 2 ^ 11 + address.function * 2 ^ 8 +
      (offset.toNat % 256 - offset.toNat % 4) := by
  have busBound : address.bus.toNat < 256 := address.bus.toNat_lt
  have deviceBound : address.device.val < 32 := address.device.isLt
  have functionBound : address.function.val < 8 := address.function.isLt
  have bus : (address.bus.toUInt32 <<< 16).toNat = address.bus.toNat * 2 ^ 16 :=
    shiftLeft_toNat (by decide) (show address.bus.toNat * 2 ^ 16 < 2 ^ 32 by omega)
  have device : (UInt32.ofNat address.device <<< 11).toNat = address.device.val * 2 ^ 11 := by
    have same : (UInt32.ofNat address.device).toNat = address.device.val :=
      UInt32.toNat_ofNat_of_lt' (Nat.lt_trans deviceBound (by decide))
    rw [shiftLeft_toNat (by decide) (show (UInt32.ofNat address.device).toNat * 2 ^ 11 < 2 ^ 32 by omega), same]
    rfl
  have function : (UInt32.ofNat address.function <<< 8).toNat = address.function.val * 2 ^ 8 := by
    have same : (UInt32.ofNat address.function).toNat = address.function.val :=
      UInt32.toNat_ofNat_of_lt' (Nat.lt_trans functionBound (by decide))
    rw [shiftLeft_toNat (by decide) (show (UInt32.ofNat address.function).toNat * 2 ^ 8 < 2 ^ 32 by omega), same]
    rfl
  have low : (offset.toUInt32 &&& 0xfc).toNat = offset.toNat % 256 - offset.toNat % 4 := and_fc _
  unfold PciCfgAccess.cfg
  rw [UInt32.toNat_or, UInt32.toNat_or, UInt32.toNat_or, UInt32.toNat_or, bus, device, function, low]
  rw [show (0x80000000 : UInt32).toNat = 2 ^ 7 * 2 ^ 24 from rfl, or_below (by omega)]
  rw [show 2 ^ 7 * 2 ^ 24 + address.bus.toNat * 2 ^ 16 = (2 ^ 15 + address.bus.toNat) * 2 ^ 16 by omega, or_below (by omega)]
  rw [show (2 ^ 15 + address.bus.toNat) * 2 ^ 16 + address.device * 2 ^ 11 =
    (2 ^ 20 + address.bus.toNat * 2 ^ 5 + address.device) * 2 ^ 11 by omega, or_below (by omega)]
  rw [show (2 ^ 20 + address.bus.toNat * 2 ^ 5 + address.device) * 2 ^ 11 + address.function * 2 ^ 8 =
    (2 ^ 23 + address.bus.toNat * 2 ^ 8 + address.device * 2 ^ 3 + address.function) * 2 ^ 8 by omega, or_below (by omega)]
  omega

namespace PcieCfgAccess

theorem ecam_register (access : PcieCfgAccess) (address : PciAddress) {n : Nat} (small : n < 2 ^ 12) :
    ecamRegister access.base.toNat (access.register address n) = ⟨address.bus.toNat, address.device, address.function, n⟩ := by
  have device := address.device.isLt
  have function := address.function.isLt
  simp only [ecamRegister, register, ConfigRegister.mk.injEq]
  omega

theorem legacy_register (address : PciAddress) (aligned : offset.toNat % 4 = 0) :
    legacyRegister (PciCfgAccess.cfg address offset) =
      ⟨address.bus.toNat, address.device, address.function, offset.toNat % 256⟩ := by
  have bus : address.bus.toNat < 256 := address.bus.toNat_lt
  have device := address.device.isLt
  have function := address.function.isLt
  simp only [legacyRegister, cfg_toNat, aligned, ConfigRegister.mk.injEq]
  omega

/-- The accessor reaches just the first 256 bytes of a function, provided the
sum fits in an address. -/
theorem exactAddr_iff (aligned : offset.toNat % 4 = 0) :
    access.exactAddr overflow address offset = some (access.register address offset.toNat) ↔
      offset.toNat < 0x100 ∧ access.register address offset.toNat < 2 ^ 64 := by
  rw [exactAddr_eq aligned]
  have less : access.register address (offset.toNat % 256) ≤ access.register address offset.toNat :=
    Nat.add_le_add_left (Nat.mod_le ..) _
  constructor
  · intro right
    have fits := Overflow.fit_some right
    have small : access.register address offset.toNat < 2 ^ 64 := fits ▸ Nat.mod_lt _ (by decide)
    rw [Nat.mod_eq_of_lt (Nat.lt_of_le_of_lt less small)] at fits
    have same : offset.toNat = offset.toNat % 256 := Nat.add_left_cancel fits
    exact ⟨same ▸ Nat.mod_lt _ (by decide), small⟩
  · rintro ⟨short, small⟩
    rw [Nat.mod_eq_of_lt short]
    exact overflow.fit_of_lt small

end PcieCfgAccess

end

/-- Configuration registers are addressed as they should be just below offset
`0x100`; beyond, an access goes to the register with the same lowest byte. Below,
no two registers share an address, and both accessors mean the same one. -/
theorem config_addressing_iff (overflow : Overflow) (access : PcieCfgAccess) (address : PciAddress) {offset : UInt16}
    (aligned : offset.toNat % 4 = 0) :
    (access.exactAddr overflow address offset = some (access.register address offset.toNat) ↔
      offset.toNat < 0x100 ∧ access.register address offset.toNat < 2 ^ 64) ∧
    access.exactAddr overflow address offset = access.exactAddr overflow address (offset % 0x100) ∧
    (offset.toNat < 0x100 → access.register address offset.toNat < 2 ^ 64 →
      (∀ mem, access.read overflow address mem offset = some (mem.load (access.register address offset.toNat) 4)) ∧
      (∀ mem value, access.write overflow address mem offset value =
        some (mem.store (access.register address offset.toNat) 4 value.toNat)) ∧
      (∀ address' offset', offset'.toNat % 4 = 0 → offset'.toNat < 0x100 →
        access.register address' offset'.toNat < 2 ^ 64 →
        access.exactAddr overflow address offset = access.exactAddr overflow address' offset' →
          address.bus = address'.bus ∧ address.device = address'.device ∧ address.function = address'.function ∧
            offset = offset') ∧
      (access.exactAddr overflow address offset).map (ecamRegister access.base.toNat) =
        some (legacyRegister (PciCfgAccess.cfg address offset))) := by
  refine ⟨PcieCfgAccess.exactAddr_iff aligned, ?_, fun short small =>
    ⟨fun mem => ?_, fun mem value => ?_, fun address' offset' aligned' short' small' same => ?_, ?_⟩⟩
  · have low : (offset % 0x100).toNat = offset.toNat % 256 := UInt16.toNat_mod ..
    rw [PcieCfgAccess.exactAddr_eq aligned, PcieCfgAccess.exactAddr_eq (by omega), low, Nat.mod_mod]
  · rw [PcieCfgAccess.read, PcieCfgAccess.exactAddr_iff aligned |>.mpr ⟨short, small⟩, Option.map_some]
  · rw [PcieCfgAccess.write, PcieCfgAccess.exactAddr_iff aligned |>.mpr ⟨short, small⟩, Option.map_some]
  · rw [PcieCfgAccess.exactAddr_iff aligned |>.mpr ⟨short, small⟩,
      PcieCfgAccess.exactAddr_iff aligned' |>.mpr ⟨short', small'⟩] at same
    have decoded := congrArg (ecamRegister access.base.toNat) (Option.some.inj same)
    rw [access.ecam_register address (by omega), access.ecam_register address' (by omega)] at decoded
    injection decoded with bus device function low
    exact ⟨UInt8.toNat_inj.mp bus, Fin.ext device, Fin.ext function, UInt16.toNat_inj.mp low⟩
  · rw [PcieCfgAccess.exactAddr_iff aligned |>.mpr ⟨short, small⟩, Option.map_some, access.ecam_register address (by omega),
      PcieCfgAccess.legacy_register address aligned, Nat.mod_eq_of_lt short]

/-- The vendor id is where it should be. -/
theorem vendor_id_addressed : PcieCfgAccess.exactAddr .panics ⟨0xe0000000⟩ ⟨0, 1, 2, 3⟩ 0 = some 0xe0113000 :=
  (config_addressing_iff .panics ⟨0xe0000000⟩ ⟨0, 1, 2, 3⟩ (by decide)).1.mpr (by decide)

/-- The first extended capability of a function, at offset `0x100`, is read from
the place of its vendor id. -/
theorem extended_register_aliased :
    PcieCfgAccess.exactAddr .panics ⟨0xe0000000⟩ ⟨0, 1, 2, 3⟩ 0x100 =
      PcieCfgAccess.exactAddr .panics ⟨0xe0000000⟩ ⟨0, 1, 2, 3⟩ 0 ∧
    PcieCfgAccess.exactAddr .panics ⟨0xe0000000⟩ ⟨0, 1, 2, 3⟩ 0x100 ≠
      some (PcieCfgAccess.register ⟨0xe0000000⟩ ⟨0, 1, 2, 3⟩ 0x100) := by
  decide

end ProkaKernel
