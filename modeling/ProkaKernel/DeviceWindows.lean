import ProkaKernel.ConfigAccess
import ProkaKernel.MemoryInit
import ProkaKernel.Prog

namespace ProkaKernel

/-- The number of 2 MiB pages of this many bytes. -/
def hugePages (size : Nat) : Nat := (size + 0x1fffff) / 0x200000

theorem alignUp_hugePages {size : Nat} (small : size + 0x1fffff < 2 ^ 64) :
    Kernel.alignUp size 0x200000 = some (0x200000 * hugePages size) := by
  unfold Kernel.alignUp hugePages
  by_cases aligned : size % 0x200000 = 0
  · rw [if_pos aligned]
    exact congrArg some (by omega)
  · rw [if_neg aligned, if_pos (by omega)]
    exact congrArg some (by omega)

theorem alignUp_some {size aligned : Nat} (small : size < 2 ^ 64) (run : Kernel.alignUp size 0x200000 = some aligned) :
    aligned = 0x200000 * hugePages size ∧ aligned < 2 ^ 64 := by
  unfold Kernel.alignUp hugePages at *
  split at run
  · cases run
    exact ⟨by omega, small⟩
  · split at run
    · rename_i fits
      cases run
      exact ⟨by omega, fits⟩
    · cases run

namespace IdentityMapper

section Regions
variable {K : Type} (m : IdentityMapper K)

/-- The loop of `map_physical_region` over the addresses from `addr` on, which
moves on by a byte for every 2 MiB of the region. -/
def mapBytes (addr : Nat) : Nat → K → Option K
  | 0, k => some k
  | n + 1, k => (m.mapAddr k addr).bind (mapBytes (addr + 1) n)

/-- `map_physical_region` of the ACPI handler. The pointer it returns must not
be null. -/
def mapPhysicalRegion (overflow : Overflow) (physicalAddress size : Nat) (k : K) : Option K := do
  let sizeAligned ← Kernel.alignUp size 0x200000
  let range := sizeAligned >>> 21
  let last ← overflow.fit 64 (physicalAddress + range)
  let k ← m.mapBytes physicalAddress (last + 1 - physicalAddress) k
  if physicalAddress = 0 then none else some k

/-- Every byte of the region lies in a mapped page. -/
def RegionMapped (k : K) (physicalAddress size : Nat) : Prop :=
  ∀ x, physicalAddress ≤ x → x < physicalAddress + size → m.mapped k (x / 0x200000)

variable {m} {k k' : K} {addr n : Nat}

theorem mapBytes_mapped (run : m.mapBytes addr n k = some k') (f : Nat) :
    m.mapped k' f ↔ m.mapped k f ∨ ∃ i < n, f = (addr + i) / 0x200000 := by
  induction n generalizing addr k with
  | zero =>
    cases run
    exact (or_iff_left (by rintro ⟨i, none, _⟩; exact Nat.not_lt_zero i none)).symm
  | succ n ih =>
    obtain ⟨middle, first, rest⟩ := Option.bind_eq_some_iff.mp run
    rw [ih rest, m.mapAddr_mapped first, or_assoc]
    refine or_congr_right ⟨?_, ?_⟩
    · rintro (rfl | ⟨i, inside, rfl⟩)
      · exact ⟨0, Nat.succ_pos n, rfl⟩
      · exact ⟨i + 1, Nat.succ_lt_succ inside, by rw [Nat.add_right_comm, Nat.add_assoc]⟩
    · rintro ⟨i, inside, rfl⟩
      cases i with
      | zero => exact Or.inl rfl
      | succ i => exact Or.inr ⟨i, Nat.lt_of_succ_lt_succ inside, by rw [Nat.add_right_comm, Nat.add_assoc]⟩

theorem mapPhysicalRegion_mapped {overflow : Overflow} {physicalAddress size : Nat} (inside : physicalAddress + size ≤ 2 ^ 52)
    (run : m.mapPhysicalRegion overflow physicalAddress size k = some k') (f : Nat) :
    m.mapped k' f ↔ m.mapped k f ∨
      (physicalAddress / 0x200000 ≤ f ∧ f ≤ (physicalAddress + hugePages size) / 0x200000) := by
  have pages : hugePages size ≤ size := by
    unfold hugePages
    omega
  unfold mapPhysicalRegion at run
  rw [alignUp_hugePages (by omega), Option.bind_eq_bind, Option.bind_some] at run
  obtain ⟨last, fits, run⟩ := Option.bind_eq_some_iff.mp run
  rw [Nat.shiftRight_eq_div_pow, Nat.mul_div_cancel_left _ (by decide), overflow.fit_of_lt (by omega)] at fits
  cases fits
  obtain ⟨after, loop, run⟩ := Option.bind_eq_some_iff.mp run
  split at run
  · cases run
  · cases run
    rw [mapBytes_mapped loop]
    refine or_congr_right ⟨?_, fun ⟨lower, upper⟩ => ?_⟩
    · rintro ⟨i, short, rfl⟩
      exact ⟨Nat.div_le_div_right (Nat.le_add_right ..), Nat.div_le_div_right (by omega)⟩
    · by_cases first : f = physicalAddress / 0x200000
      · exact ⟨0, by omega, first⟩
      · exact ⟨f * 0x200000 - physicalAddress, by omega, by omega⟩

/-- A region is mapped just as far as its bytes were mapped before, or lie in
the page of its start or in those of the few bytes that the loop visits. -/
theorem region_mapped_iff {overflow : Overflow} {physicalAddress size : Nat} (inside : physicalAddress + size ≤ 2 ^ 52)
    (run : m.mapPhysicalRegion overflow physicalAddress size k = some k') :
    m.RegionMapped k' physicalAddress size ↔ ∀ x, physicalAddress ≤ x → x < physicalAddress + size →
      (physicalAddress + hugePages size) / 0x200000 < x / 0x200000 → m.mapped k (x / 0x200000) := by
  constructor
  · intro mapped x lower upper beyond
    rcases (mapPhysicalRegion_mapped inside run _).mp (mapped x lower upper) with before | ⟨_, visited⟩
    · exact before
    · exact absurd visited (Nat.not_le.mpr beyond)
  · intro before x lower upper
    refine (mapPhysicalRegion_mapped inside run _).mpr ?_
    by_cases beyond : (physicalAddress + hugePages size) / 0x200000 < x / 0x200000
    · exact Or.inl (before x lower upper beyond)
    · exact Or.inr ⟨Nat.div_le_div_right lower, Nat.le_of_not_lt beyond⟩

end Regions

/-- A table of 4 KiB above the low mapping. -/
theorem region_mapped_small_table :
    ∃ k', listMapper.mapPhysicalRegion .panics 0x7fe01000 0x1000 (List.range 512) = some k' ∧
      listMapper.RegionMapped k' 0x7fe01000 0x1000 := by
  obtain ⟨k', run⟩ := Option.isSome_iff_exists.mp
    (by decide +kernel : (listMapper.mapPhysicalRegion .panics 0x7fe01000 0x1000 (List.range 512)).isSome = true)
  refine ⟨k', run, (region_mapped_iff (by decide) run).mpr fun x lower upper beyond => ?_⟩
  unfold hugePages at beyond
  omega

/-- Of a region of 4 MiB only the first half is mapped. -/
theorem region_second_page_unmapped :
    ∃ k', listMapper.mapPhysicalRegion .panics 0x80000000 0x400000 (List.range 512) = some k' ∧
      ¬listMapper.RegionMapped k' 0x80000000 0x400000 := by
  obtain ⟨k', run⟩ := Option.isSome_iff_exists.mp
    (by decide +kernel : (listMapper.mapPhysicalRegion .panics 0x80000000 0x400000 (List.range 512)).isSome = true)
  refine ⟨k', run, fun mapped => ?_⟩
  rcases (mapPhysicalRegion_mapped (by decide) run _).mp (mapped 0x80200000 (by decide) (by decide)) with before | ⟨_, visited⟩
  · exact absurd (List.mem_range.mp before) (by decide)
  · exact absurd visited (by decide)

end IdentityMapper

/-- The arithmetic of `map_pcie`: the first address that is mapped, and the
number of pages of 2 MiB. -/
def ecamWindow (overflow : Overflow) (base : UInt64) (start stop : UInt8) : Option (Nat × Nat) := do
  let addrStart ← overflow.fit 64 (base.toNat + 0x100000 * start.toNat)
  let buses ← overflow.sub 8 stop.toNat start.toNat
  let addrEnd ← overflow.fit 64 (base.toNat + 0x100000 * buses)
  let addrStartAligned := 0x200000 * (addrStart / 0x200000)
  let addrEndAligned ← Kernel.alignUp addrEnd 0x200000
  let bytes ← overflow.sub 64 addrEndAligned addrStartAligned
  pure (addrStartAligned, bytes / 0x200000)

namespace IdentityMapper

section Windows
variable {K : Type} (m : IdentityMapper K)

/-- The loop of `map_pcie`. -/
def mapWindow (addrStart : Nat) : Nat → Nat → Prog K Unit Unit
  | 0, _ => pure ()
  | left + 1, i => do
    m.mapFrame (addrStart + 0x200000 * i)
    mapWindow addrStart left (i + 1)

def mapPcie (overflow : Overflow) (base : UInt64) (start stop : UInt8) : Prog K Unit Unit := do
  let window ← Prog.unwrap (ecamWindow overflow base start stop)
  m.mapWindow window.1 window.2 0

/-- Every configuration address of the buses from `start` to `stop` is in a
mapped page. -/
def EcamMapped (k : K) (base : UInt64) (start stop : UInt8) : Prop :=
  ∀ address : PciAddress, start ≤ address.bus → address.bus ≤ stop → ∀ offset, offset < 0x1000 →
    m.mapped k (PcieCfgAccess.register ⟨base⟩ address offset / 0x200000)

variable {m}
open Prog

/-- The loop maps whole pages, one after the other, all in the lower half. -/
theorem mapWindow_wp {k : K} {addrStart left i : Nat} (aligned : addrStart % 0x200000 = 0) : wp (m.mapWindow addrStart left i)
    (fun _ k' => (left ≠ 0 → addrStart + 0x200000 * (i + left) ≤ 2 ^ 47) ∧ ∀ f, m.mapped k' f ↔ m.mapped k f ∨
      (addrStart / 0x200000 + i ≤ f ∧ f < addrStart / 0x200000 + i + left)) (fun _ _ => True) k := by
  induction left generalizing i k with
  | zero => exact wp_pure ⟨fun none => absurd rfl none, fun f => (or_iff_left (by omega)).symm⟩
  | succ left ih =>
    refine wp_bind (m.mapFrame_wp.mono (fun _ k1 ⟨small, first⟩ => ?_) fun _ _ => id)
    refine ih.mono (fun _ k2 ⟨within, rest⟩ => ⟨fun _ => ?_, fun f => ?_⟩) fun _ _ => id
    · rcases Nat.eq_zero_or_pos left with rfl | more
      · omega
      · have bound := within (Nat.pos_iff_ne_zero.mp more)
        rwa [Nat.add_right_comm, Nat.add_assoc] at bound
    · rw [rest, first, or_assoc]
      refine or_congr_right ?_
      omega

end Windows

end IdentityMapper

/-- The page of 2 MiB in which bus `start` begins. -/
def firstPage (base : UInt64) (start : UInt8) : Nat := (base.toNat + 0x100000 * start.toNat) / 0x200000

/-- The page up to which `map_pcie` maps: it adds only the number of buses to
the base. -/
def endPage (base : UInt64) (start stop : UInt8) : Nat := hugePages (base.toNat + 0x100000 * (stop.toNat - start.toNat))

section
variable {base : UInt64} {start stop : UInt8}

/-- The window in pages of 2 MiB, when nothing overflows. -/
theorem ecamWindow_eq (overflow : Overflow) (order : start ≤ stop) (first : base.toNat + 0x100000 * start.toNat < 2 ^ 64)
    (last : 0x200000 * endPage base start stop < 2 ^ 64) (apart : firstPage base start ≤ endPage base start stop) :
    ecamWindow overflow base start stop =
      some (0x200000 * firstPage base start, endPage base start stop - firstPage base start) := by
  have rounded : base.toNat + 0x100000 * (stop.toNat - start.toNat) + 0x1fffff < 2 ^ 64 := by
    unfold endPage hugePages at last
    omega
  have inside : base.toNat + 0x100000 * (stop.toNat - start.toNat) < 2 ^ 64 :=
    Nat.lt_of_le_of_lt (Nat.le_add_right _ 0x1fffff) rounded
  have bytes := overflow.sub_of_le 64 (Nat.mul_le_mul_left 0x200000 apart)
  rw [← Nat.mul_sub] at bytes
  unfold firstPage endPage at *
  refine Option.bind_eq_some_iff.mpr ⟨_, overflow.fit_of_lt first, ?_⟩
  refine Option.bind_eq_some_iff.mpr ⟨_, overflow.sub_of_le 8 (UInt8.le_iff_toNat_le.mp order), ?_⟩
  refine Option.bind_eq_some_iff.mpr ⟨_, overflow.fit_of_lt inside, ?_⟩
  refine Option.bind_eq_some_iff.mpr ⟨_, alignUp_hugePages rounded, ?_⟩
  refine Option.bind_eq_some_iff.mpr ⟨_, bytes, ?_⟩
  rw [Nat.mul_div_cancel_left _ (by decide)]
  rfl

theorem ecamWindow_exact {window : Nat × Nat} (run : ecamWindow .panics base start stop = some window) :
    base.toNat + 0x100000 * start.toNat < 2 ^ 64 ∧ 0x200000 * endPage base start stop < 2 ^ 64 ∧
      firstPage base start ≤ endPage base start stop := by
  obtain ⟨addrStart, first, run⟩ := Option.bind_eq_some_iff.mp run
  obtain ⟨small, rfl⟩ := Overflow.fit_panics_some first
  obtain ⟨buses, order, run⟩ := Option.bind_eq_some_iff.mp run
  obtain ⟨_, rfl⟩ := Overflow.sub_panics_some order
  obtain ⟨addrEnd, last, run⟩ := Option.bind_eq_some_iff.mp run
  obtain ⟨small', rfl⟩ := Overflow.fit_panics_some last
  obtain ⟨aligned, up, run⟩ := Option.bind_eq_some_iff.mp run
  obtain ⟨rfl, fits⟩ := alignUp_some small' up
  obtain ⟨bytes, apart, _⟩ := Option.bind_eq_some_iff.mp run
  have le := (Overflow.sub_panics_some apart).1
  unfold firstPage endPage
  exact ⟨small, fits, Nat.le_of_mul_le_mul_left le (by decide)⟩

/-- In units of a bus, of which a page holds two. -/
theorem firstPage_eq {b : Nat} (aligned : base.toNat = 0x100000 * b) : firstPage base start = (b + start.toNat) / 2 := by
  unfold firstPage
  omega

theorem endPage_eq {b : Nat} (aligned : base.toNat = 0x100000 * b) :
    endPage base start stop = (b + (stop.toNat - start.toNat) + 1) / 2 := by
  unfold endPage hugePages
  rw [aligned, ← Nat.mul_add]
  omega

theorem register_page {b offset : Nat} (address : PciAddress) (aligned : base.toNat = 0x100000 * b) (inside : offset < 0x1000) :
    PcieCfgAccess.register ⟨base⟩ address offset / 0x200000 = (b + address.bus.toNat) / 2 := by
  have device := address.device.isLt
  have function := address.function.isLt
  have base' : PcieCfgAccess.base ⟨base⟩ = base := rfl
  unfold PcieCfgAccess.register
  rw [base', aligned]
  omega

theorem mapPcie_eq {K : Type} (m : IdentityMapper K) {overflow : Overflow} {window : Nat × Nat}
    (arithmetic : ecamWindow overflow base start stop = some window) :
    m.mapPcie overflow base start stop = m.mapWindow window.1 window.2 0 := by
  unfold IdentityMapper.mapPcie
  rw [arithmetic]
  rfl

/-- What `map_pcie` maps, when its arithmetic is exact. -/
theorem mapPcie_mapped {K : Type} {m : IdentityMapper K} {overflow : Overflow} {k k' : K} (order : start ≤ stop)
    (first : base.toNat + 0x100000 * start.toNat < 2 ^ 64) (last : 0x200000 * endPage base start stop < 2 ^ 64)
    (apart : firstPage base start ≤ endPage base start stop)
    (run : m.mapPcie overflow base start stop k = some (.ok (), k')) :
    (firstPage base start ≠ endPage base start stop → endPage base start stop ≤ 2 ^ 26) ∧
      ∀ f, m.mapped k' f ↔ m.mapped k f ∨ (firstPage base start ≤ f ∧ f < endPage base start stop) := by
  have window := ecamWindow_eq overflow order first last apart
  rw [mapPcie_eq m window] at run
  obtain ⟨within, mapped⟩ := (IdentityMapper.mapWindow_wp (Nat.mul_mod_right ..)).ok run
  refine ⟨fun other => ?_, fun f => (mapped f).trans (or_congr_right ?_)⟩
  · have bound := within (by omega)
    omega
  · omega

end

/-- The whole window of a segment is mapped: the arithmetic of `map_pcie` is
exact, and when it returns `Ok` every configuration address is in a mapped page,
whatever was mapped before. -/
def EcamCovered (base : UInt64) (start stop : UInt8) : Prop :=
  (ecamWindow .panics base start stop).isSome ∧ ∀ (K : Type) (m : IdentityMapper K) (overflow : Overflow) (k k' : K),
    m.mapPcie overflow base start stop k = some (.ok (), k') → m.EcamMapped k' base start stop

theorem listMapper_mapWindow (k : List Nat) {addrStart left i : Nat}
    (bound : left ≠ 0 → addrStart + 0x200000 * (i + left) ≤ 2 ^ 47) :
    ∃ k', IdentityMapper.listMapper.mapWindow addrStart left i k = some (.ok (), k') := by
  induction left generalizing i k with
  | zero => exact ⟨k, rfl⟩
  | succ left ih =>
    have within := bound (Nat.succ_ne_zero left)
    obtain ⟨middle, one⟩ := IdentityMapper.listMapper_mapFrame k (show addrStart + 0x200000 * i < 2 ^ 47 by omega)
    obtain ⟨k', rest⟩ := ih (i := i + 1) middle fun _ => by
      rw [Nat.add_assoc i, Nat.add_comm 1 left]
      exact within
    exact ⟨k', (Prog.bind_ok one).trans rest⟩

/-- The window of a segment is mapped as a whole just when it starts at bus 0
and its last bus fills up a page of 2 MiB. For other windows `map_pcie` maps too
little, or its subtraction underflows; only beyond the lower half does it never
return `Ok`. -/
theorem ecam_covered_iff {base : UInt64} {start stop : UInt8} (aligned : base.toNat % 0x100000 = 0) (order : start ≤ stop) :
    EcamCovered base start stop ↔
      (start.toNat = 0 ∧ (base.toNat / 0x100000 + stop.toNat) % 2 = 1 ∧
        base.toNat + 0x100000 * (stop.toNat + 1) < 2 ^ 64) ∨
      (base.toNat + 0x100000 * start.toNat < 2 ^ 64 ∧ firstPage base start < endPage base start stop ∧
        2 ^ 26 < endPage base start stop ∧ 0x200000 * endPage base start stop < 2 ^ 64) := by
  obtain ⟨b, mib⟩ : ∃ b, base.toNat = 0x100000 * b := ⟨_, (Nat.mul_div_cancel' (Nat.dvd_of_mod_eq_zero aligned)).symm⟩
  have firstEq : firstPage base start = (b + start.toNat) / 2 := firstPage_eq mib
  have endEq : endPage base start stop = (b + (stop.toNat - start.toNat) + 1) / 2 := endPage_eq mib
  have order' := UInt8.le_iff_toNat_le.mp order
  rw [mib, Nat.mul_div_cancel_left _ (by decide)]
  constructor
  · rintro ⟨arithmetic, covers⟩
    obtain ⟨window, run⟩ := Option.isSome_iff_exists.mp arithmetic
    obtain ⟨first, last, apart⟩ := ecamWindow_exact run
    by_cases beyond : firstPage base start < endPage base start stop ∧ 2 ^ 26 < endPage base start stop
    · exact Or.inr ⟨by rw [← mib]; exact first, beyond.1, beyond.2, last⟩
    · have window := ecamWindow_eq .panics order first last apart
      obtain ⟨k', maps⟩ : ∃ k', IdentityMapper.listMapper.mapWindow (0x200000 * firstPage base start)
          (endPage base start stop - firstPage base start) 0 [] = some (.ok (), k') :=
        listMapper_mapWindow [] fun pages => by omega
      have loop := (congrFun (mapPcie_eq IdentityMapper.listMapper window) []).trans maps
      have covered := covers _ _ _ _ _ loop ⟨0, stop, 0, 0⟩ order (UInt8.le_refl stop) 0 (by decide)
      rw [register_page _ mib (by decide), (mapPcie_mapped order first last apart loop).2] at covered
      rcases covered with before | ⟨_, inside⟩
      · exact absurd before List.not_mem_nil
      · change (b + stop.toNat) / 2 < _ at inside
        refine Or.inl ⟨by omega, by omega, by omega⟩
  · rintro (⟨zero, odd, fits⟩ | ⟨first, apart, beyond, last⟩)
    · have first : base.toNat + 0x100000 * start.toNat < 2 ^ 64 := by omega
      have last : 0x200000 * endPage base start stop < 2 ^ 64 := by omega
      have apart : firstPage base start ≤ endPage base start stop := by omega
      refine ⟨by rw [ecamWindow_eq .panics order first last apart]; rfl,
        fun K m overflow k k' run address lower upper offset inside => ?_⟩
      have upper' := UInt8.le_iff_toNat_le.mp upper
      rw [register_page _ mib inside, (mapPcie_mapped order first last apart run).2]
      exact Or.inr (by omega)
    · rw [← mib] at first
      refine ⟨by rw [ecamWindow_eq .panics order first last (Nat.le_of_lt apart)]; rfl, fun K m overflow k k' run => ?_⟩
      have within := (mapPcie_mapped order first last (Nat.le_of_lt apart) run).1 (Nat.ne_of_lt apart)
      exact absurd within (Nat.not_le.mpr beyond)

/-- A segment with all its buses. -/
theorem ecam_covered_all_buses : EcamCovered 0xe0000000 0 255 :=
  (ecam_covered_iff (by decide) (by decide)).mpr (Or.inl (by decide))

/-- Of a segment with bus 0 alone nothing is mapped, and the window of buses 16
and 17 underflows. -/
theorem ecam_single_bus_unmapped :
    (∃ k', IdentityMapper.listMapper.mapPcie .panics 0xe0000000 0 0 (List.range 512) = some (.ok (), k') ∧
      ¬IdentityMapper.listMapper.EcamMapped k' 0xe0000000 0 0) ∧
    ecamWindow .panics 0xe0000000 16 17 = none := by
  refine ⟨⟨List.range 512, rfl, fun mapped => ?_⟩, by decide⟩
  have first := mapped ⟨0, 0, 0, 0⟩ (by decide) (by decide) 0 (by decide)
  exact absurd (List.mem_range.mp first) (by decide)

end ProkaKernel
