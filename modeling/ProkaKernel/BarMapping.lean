import ProkaKernel.DriverRecord
import ProkaKernel.HugeFrames

namespace ProkaKernel

/-- The frames of 2 MiB that the loop of `map_mmio` goes through. -/
def mmioFrames (addr size : Nat) : Option (List Nat) :=
  (Kernel.alignUp size 0x200000).map fun length =>
    (List.range (length / 0x200000)).map fun i => (addr + i * 0x200000) / 0x200000

section
variable {addr size n : Nat} {frames : List Nat}

/-- A size that is a power of two is rounded up to one frame at least. -/
theorem alignUp_power (power : size = 2 ^ n) : Kernel.alignUp size 0x200000 = some (max size 0x200000) := by
  unfold Kernel.alignUp
  rcases Nat.lt_or_ge n 21 with short | long
  · have positive : 0 < size := power ▸ Nat.two_pow_pos n
    have less : size < 0x200000 := power ▸ Nat.pow_lt_pow_right (by decide) short
    rw [if_neg (by omega), if_pos (by omega), max_eq_right less.le]
    congr 1
    omega
  · have whole : 0x200000 ∣ size := power ▸ Nat.pow_dvd_pow 2 long
    rw [if_pos (Nat.mod_eq_zero_of_dvd whole), max_eq_left (Nat.le_of_dvd (power ▸ Nat.two_pow_pos n) whole)]

theorem mem_mmioFrames (power : size = 2 ^ n) (known : mmioFrames addr size = some frames) {frame : Nat} :
    frame ∈ frames ↔ addr / 0x200000 ≤ frame ∧ frame < addr / 0x200000 + max size 0x200000 / 0x200000 := by
  rw [mmioFrames, alignUp_power power, Option.map_some] at known
  cases known
  rw [List.mem_map]
  constructor
  · rintro ⟨i, inside, rfl⟩
    have below := List.mem_range.mp inside
    omega
  · rintro ⟨lower, upper⟩
    exact ⟨frame - addr / 0x200000, List.mem_range.mpr (by omega), by omega⟩

/-- A region that is aligned to its size and smaller than a frame lies in one. -/
theorem region_in_frame (power : size = 2 ^ n) (aligned : addr % size = 0) (short : n < 21) :
    addr % 0x200000 + size ≤ 0x200000 := by
  obtain ⟨a, rfl⟩ := Nat.dvd_of_mod_eq_zero aligned
  have block : 0x200000 = size * 2 ^ (21 - n) := by
    rw [power, ← Nat.pow_add, show n + (21 - n) = 21 by omega]
  have below : a % 2 ^ (21 - n) + 1 ≤ 2 ^ (21 - n) := Nat.mod_lt _ (Nat.two_pow_pos _)
  calc size * a % 0x200000 + size = size * (a % 2 ^ (21 - n) + 1) := by
        rw [block, Nat.mul_mod_mul_left, Nat.mul_succ]
    _ ≤ size * 2 ^ (21 - n) := Nat.mul_le_mul_left _ below
    _ = 0x200000 := block.symm

/-- The frames of the loop are those that have a byte of the region. -/
theorem mmioFrames_region (power : size = 2 ^ n) (aligned : addr % size = 0) (known : mmioFrames addr size = some frames)
    {frame : Nat} : frame ∈ frames ↔ ∃ x, addr ≤ x ∧ x < addr + size ∧ x / 0x200000 = frame := by
  rw [mem_mmioFrames power known]
  have positive : 0 < size := power ▸ Nat.two_pow_pos n
  rcases Nat.lt_or_ge n 21 with short | long
  · have inside := region_in_frame power aligned short
    rw [max_eq_right (by omega)]
    constructor
    · intro bounds
      exact ⟨addr, by omega, by omega, by omega⟩
    · rintro ⟨x, lower, upper, rfl⟩
      omega
  · obtain ⟨c, whole⟩ : 0x200000 ∣ size := power ▸ Nat.pow_dvd_pow 2 long
    obtain ⟨a, start⟩ : 0x200000 ∣ addr := (Dvd.intro c whole.symm).trans (Nat.dvd_of_mod_eq_zero aligned)
    rw [max_eq_left (by omega)]
    constructor
    · intro bounds
      exact ⟨frame * 0x200000, by omega, by omega, by omega⟩
    · rintro ⟨x, lower, upper, rfl⟩
      omega

end

theorem HugeMapped.self_iff {root x : Nat} {frames : List Nat} {m m' : Mem} (mapped : HugeMapped root frames m m')
    (low : x < 2 ^ 47) (inside : x / 2 ^ 21 ∈ frames) :
    hwTranslate m' root x = some x ↔ FreeSlot m root (x / 2 ^ 21) ∨ hwTranslate m root x = some x := by
  by_cases free : FreeSlot m root (x / 2 ^ 21)
  · exact iff_of_true (mapped.mapped x low inside free) (Or.inl free)
  · rw [mapped.others x low fun _ => free, or_iff_right free]

namespace Kernel
open Prog

section
variable {ε : Type} {E : ε → Kernel → Prop} {R : Set Nat} {k : Kernel} {root : Nat} (mapper : ExactDeviceMapper)

theorem mapFrames_huge (addr left i : Nat) (valid : k.Valid R) (member : root ∈ R) :
    wp (mapFrames mapper.toDeviceMapper root addr left i) (fun _ k' =>
      HugeMapped root ((List.range' i left).map fun j => (addr + j * 0x200000) / 0x200000) k.mem k'.mem ∧
      ∀ j ∈ List.range' i left, addr + j * 0x200000 < 2 ^ 47) E k := by
  induction left generalizing k i with
  | zero =>
    exact wp_pure ⟨HugeMapped.refl root k.mem, fun _ none => nomatch none⟩
  | succ left ih =>
    refine wp_bind (wp_pageAt fun bound => wp_bind (wp_identityMap _ fun result m a run => ?_))
    have frame : (addr + i * 0x200000) / 4096 / 512 = (addr + i * 0x200000) / 0x200000 := by omega
    have next : Mapped R k { k with mem := m, alloc := a } :=
      Mapped.identityMap ⟨rfl, .refl⟩ valid member (by omega) run
    have goes (done : result ≠ .failed) : wp (mapFrames mapper.toDeviceMapper root addr left (i + 1)) (fun _ k' =>
        HugeMapped root ((List.range' i (left + 1)).map fun j => (addr + j * 0x200000) / 0x200000) k.mem k'.mem ∧
        ∀ j ∈ List.range' i (left + 1), addr + j * 0x200000 < 2 ^ 47) E { k with mem := m, alloc := a } := by
      have first := mapper.identityMap_huge (valid.stage.owns.single member) (by omega) run done
      refine (ih (i + 1) (next.edited.valid valid)).mono ?_ fun _ _ => id
      rintro _ k' ⟨rest, below⟩
      rw [List.range'_succ, List.map_cons]
      refine ⟨?_, fun j inside => ?_⟩
      · rw [← frame]
        exact first.trans rest
      · rcases List.mem_cons.mp inside with rfl | later
        · omega
        · exact below j later
    cases result with
    | failed => exact wp_abort
    | mapped => exact goes nofun
    | pageAlreadyMapped => exact goes nofun

/-- All that `map_mmio` does with a register of memory. -/
theorem mapMmioBar_huge {bar : Bar} {addr size : Nat} (region : bar.region = some (addr, size)) (valid : k.Valid R)
    (member : root ∈ R) : wp (mapMmioBar mapper.toDeviceMapper root (some bar)) (fun returned k' => returned = some bar ∧
      ∃ frames, mmioFrames addr size = some frames ∧ HugeMapped root frames k.mem k'.mem ∧
        ∀ n ∈ frames, n < 2 ^ 26) E k := by
  refine wp_bind ?_
  rw [mapMmio, Option.bind_some, region]
  refine wp_bind (wp_unwrap fun length aligned => ?_)
  refine (mapFrames_huge mapper addr (length / 0x200000) 0 valid member).mono ?_ fun _ _ => id
  rintro _ k' ⟨mapped, below⟩
  refine wp_pure ⟨by simp [Option.filter, region], _, ?_, mapped, fun n inside => ?_⟩
  · rw [mmioFrames, aligned, Option.map_some, List.range_eq_range']
  · obtain ⟨j, there, rfl⟩ := List.mem_map.mp inside
    have small := below j there
    omega

end

/-- The frames of the loop are those that have a byte of the region. When
`map_mmio` returns, each byte is mapped to itself if and only if nothing was in
its slot of 2 MiB, or it was mapped to itself before. -/
theorem bar_mapped_iff (mapper : ExactDeviceMapper) (parse : List UInt8 → Option Image) {map : MemoryMap} {start k : Kernel}
    {tables : Set Nat} {root addr size n : Nat} {bar : Bar} (boot : start.Boot map)
    (reach : DeviceReach mapper.toDeviceMapper parse start k tables) (caller : root * 4096 ∈ tables)
    (region : bar.region = some (addr, size)) (power : size = 2 ^ n) (aligned : addr % size = 0) :
    ∃ frames, mmioFrames addr size = some frames ∧
      (∀ x, addr ≤ x → x < addr + size → x / 2 ^ 21 ∈ frames) ∧
      (∀ frame ∈ frames, ∃ x, addr ≤ x ∧ x < addr + size ∧ x / 2 ^ 21 = frame) ∧
      ∀ k', (mapMmioBar mapper.toDeviceMapper root (some bar) : Prog Kernel Error _) k = some (.ok (some bar), k') →
        ((∀ x, addr ≤ x → x < addr + size → hwTranslate k'.mem root x = some x) ↔
          ∀ x, addr ≤ x → x < addr + size → FreeSlot k.mem root (x / 2 ^ 21) ∨ hwTranslate k.mem root x = some x) := by
  obtain ⟨frames, known⟩ : ∃ frames, mmioFrames addr size = some frames := by
    rw [mmioFrames, alignUp_power power]
    exact ⟨_, rfl⟩
  have touched {frame : Nat} : frame ∈ frames ↔ ∃ x, addr ≤ x ∧ x < addr + size ∧ x / 2 ^ 21 = frame :=
    mmioFrames_region power aligned known
  refine ⟨frames, known, fun x lower upper => touched.mpr ⟨x, lower, upper, rfl⟩, fun frame there => touched.mp there,
    fun k' run => ?_⟩
  obtain ⟨R, valid, _, roots⟩ := reach.edits _ boot
  obtain ⟨r, member, same⟩ := roots _ caller
  obtain rfl : root = r := by omega
  obtain ⟨_, _, known', mapped, below⟩ := (mapMmioBar_huge mapper (E := fun _ _ => True) region valid member).ok run
  cases known.symm.trans known'
  refine forall_congr' fun x => forall_congr' fun lower => forall_congr' fun upper => ?_
  have frame : x / 2 ^ 21 ∈ frames := touched.mpr ⟨x, lower, upper, rfl⟩
  exact mapped.self_iff (by have := below _ frame; omega) frame

/-- The memory of the graphics card, and a region just below the end of the lower
half, where the stack of a driver is. -/
def cardBar : Bar := .memory32 0xfd000000 0x1000000
def stackBar : Bar := .memory64 0x7fffffe00000 0x200000

/-- The first driver of the small machine maps both: no table was on the way to
the card, and the other region stays without a page. -/
theorem first_driver_bars :
    ∃ k tables, DeviceReach FourLevel.deviceMapper flatParse smallKernel k tables ∧ 0x1e02 * 4096 ∈ tables ∧
      (∃ k', (mapMmioBar FourLevel.deviceMapper 0x1e02 (some cardBar) : Prog Kernel Error _) k =
        some (.ok (some cardBar), k')) ∧
      tableWalk k.mem 0x1e02 [0, 3] = none ∧
      ∃ k', (mapMmioBar FourLevel.deviceMapper 0x1e02 (some stackBar) : Prog Kernel Error _) k =
        some (.ok (some stackBar), k') ∧ hwTranslate k'.mem 0x1e02 0x7fffffe00000 = none := by
  have computed : (smallKernel.step FourLevel.deviceMapper.toPageMapper flatParse (.create [1, 0x90] 0)).map (fun k =>
      ((k.sched.driverProcess 0).present, (k.sched.driverProcess 0).tableAddr,
        (((mapMmioBar FourLevel.deviceMapper 0x1e02 (some cardBar) : Prog Kernel Error _) k).isSome,
          tableWalk k.mem 0x1e02 [0, 3],
          ((mapMmioBar FourLevel.deviceMapper 0x1e02 (some stackBar) : Prog Kernel Error _) k).map fun out =>
            hwTranslate out.2.mem 0x1e02 0x7fffffe00000))) = some (true, 0x1e02 * 4096, (true, none, some none)) := by
    decide +kernel
  obtain ⟨k, tables, reach, caller, _, same⟩ := IndexedKernel.first_driver computed
  simp only [Prod.mk.injEq] at same
  obtain ⟨card, gap, stack⟩ := same
  obtain ⟨R, valid, _, roots⟩ := reach.edits _ smallKernel_boot
  obtain ⟨root, member, table⟩ := roots _ caller
  obtain rfl : 0x1e02 = root := by omega
  have returns {bar : Bar} {addr size : Nat} {out : Except Error (Option Bar) × Kernel}
      (region : bar.region = some (addr, size))
      (run : (mapMmioBar FourLevel.deviceMapper 0x1e02 (some bar) : Prog Kernel Error _) k = some out) :
      out.1 = .ok (some bar) := by
    have facts := mapMmioBar_huge FourLevel.exactDeviceMapper (E := fun (_ : Error) _ => False) region valid member
    obtain ⟨result, k'⟩ := out
    cases result with
    | error e => exact (facts.error run).elim
    | ok returned => exact congrArg Except.ok (facts.ok run).1
  obtain ⟨out, run⟩ := Option.isSome_iff_exists.mp card
  obtain ⟨out', run', hole⟩ := Option.map_eq_some_iff.mp stack
  refine ⟨k, tables, reach, caller, ⟨out.2, ?_⟩, gap, out'.2, ?_, hole⟩
  · rw [run, ← returns rfl run]
  · rw [run', ← returns rfl run']

/-- The memory of the graphics card is mapped in full. -/
theorem bar_mapped_card :
    ∃ k k', (mapMmioBar FourLevel.deviceMapper 0x1e02 (some cardBar) : Prog Kernel Error _) k =
      some (.ok (some cardBar), k') ∧
      ∀ x, 0xfd000000 ≤ x → x < 0xfd000000 + 0x1000000 → hwTranslate k'.mem 0x1e02 x = some x := by
  obtain ⟨k, tables, reach, caller, ⟨k', run⟩, gap, _⟩ := first_driver_bars
  obtain ⟨_, _, _, _, mapped⟩ := bar_mapped_iff FourLevel.exactDeviceMapper flatParse (n := 24) smallKernel_boot reach caller
    (show cardBar.region = some (0xfd000000, 0x1000000) from rfl) (by decide) (by decide)
  refine ⟨k, k', run, (mapped k' run).mpr fun x lower upper => Or.inl fun t reached => ?_⟩
  have table : slotTable (x / 2 ^ 21) = [0, 3] := by
    simp only [slotTable, List.cons.injEq, and_true, Fin.ext_iff, Fin.val_ofNat]
    omega
  rw [table, gap] at reached
  cases reached

/-- A region next to the stack of the driver is not mapped, although `map_mmio`
returns its register. -/
theorem bar_not_mapped_stack :
    0x200000 = 2 ^ 21 ∧ 0x7fffffe00000 % 0x200000 = 0 ∧ 0x7fffffe00000 + 0x200000 ≤ 2 ^ 52 ∧
    ∃ k tables k', DeviceReach FourLevel.deviceMapper flatParse smallKernel k tables ∧ 0x1e02 * 4096 ∈ tables ∧
      (mapMmioBar FourLevel.deviceMapper 0x1e02 (some (.memory64 0x7fffffe00000 0x200000)) : Prog Kernel Error _) k =
        some (.ok (some (.memory64 0x7fffffe00000 0x200000)), k') ∧
      hwTranslate k'.mem 0x1e02 0x7fffffe00000 = none := by
  obtain ⟨k, tables, reach, caller, _, _, k', run, hole⟩ := first_driver_bars
  exact ⟨by decide, by decide, by decide, k, tables, k', reach, caller, run, hole⟩

end Kernel

end ProkaKernel
