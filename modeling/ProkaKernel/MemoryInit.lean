import Mathlib.Data.UInt
import ProkaKernel.Prog
import ProkaKernel.UsableRam

namespace ProkaKernel

/-- What `identity_map` of the page-table crate can answer; `K` is the state of
the kernel's page tables and of the frame allocator they draw from. -/
inductive MapResult (K : Type)
  | ok (k : K)
  | pageAlreadyMapped (k : K)
  | failed

/-- The crate's mapper over 2 MiB frames, with its documented behaviour: a
success maps that frame and nothing else, and `PageAlreadyMapped` says that
the page was mapped before. -/
structure IdentityMapper (K : Type) where
  mapped : K → Nat → Prop
  identityMap : K → Nat → MapResult K
  ok_mapped : ∀ {k k' frame}, identityMap k frame = .ok k' → ∀ f, mapped k' f ↔ mapped k f ∨ f = frame
  already_mapped : ∀ {k k' frame}, identityMap k frame = .pageAlreadyMapped k' →
    (∀ f, mapped k' f ↔ mapped k f) ∧ mapped k frame

/-- `TOTAL_RAM.1`: the lengths of the free entries, added as `u64`. -/
def totalFreeRam (map : MemoryMap) : UInt64 :=
  ((map.filter fun entry => entry.memType = .freeRAM).map MemoryEntry.length).sum

/-- The number of 2 MiB frames above 1 GiB that `memory::init` maps. -/
theorem totalRange_toNat {total : UInt64} (large : ¬total ≤ 0x40000000) :
    ((total - 0x40000000) / 0x200000).toNat = (total.toNat - 0x40000000) / 0x200000 := by
  have above : (0x40000000 : UInt64) ≤ total := by
    rw [UInt64.le_iff_toNat_le] at large ⊢
    exact Nat.le_of_not_le large
  rw [UInt64.toNat_div, UInt64.toNat_sub_of_le _ _ above]
  rfl

namespace IdentityMapper

variable {K : Type} (m : IdentityMapper K)

/-- One round of the mapping loops: the 2 MiB frame that contains the address.
`PhysAddr::new` panics beyond 52 bits, and `identity_map` where the address of the
frame is no virtual address of the lower half. -/
def mapFrame (addr : Nat) : Prog K Unit Unit := fun k =>
  if addr < 2 ^ 47 then
    match m.identityMap k (addr / 0x200000) with
    | .ok k' => some (.ok (), k')
    | .pageAlreadyMapped k' => some (.ok (), k')
    | .failed => some (.error (), k)
  else none

/-- A round in a loop for which any other error of the mapper is a panic too. -/
def mapAddr (k : K) (addr : Nat) : Option K :=
  match m.mapFrame addr k with
  | some (.ok _, k') => some k'
  | _ => none

/-- The loops over `base + i * 0x200000` for `i` from `first` on. -/
def mapLoop (k : K) (base first : Nat) : Nat → Option K
  | 0 => some k
  | n + 1 => (m.mapAddr k (base + first * 0x200000)).bind fun k' => mapLoop k' base (first + 1) n

/-- The mapping part of `memory::init`: the device window, then the RAM above
1 GiB, as far as the sum of the free lengths reaches. -/
def memoryInit (k : K) (map : MemoryMap) : Option K :=
  (m.mapLoop k 0xfe000000 0 8).bind fun k' =>
    if totalFreeRam map ≤ 0x40000000 then some k'
    else m.mapLoop k' 0x40000000 0 ((totalFreeRam map - 0x40000000) / 0x200000).toNat

theorem mapFrame_wp {k : K} {addr : Nat} : Prog.wp (m.mapFrame addr)
    (fun _ k' => addr < 2 ^ 47 ∧ ∀ f, m.mapped k' f ↔ m.mapped k f ∨ f = addr / 0x200000) (fun _ _ => True) k := by
  unfold Prog.wp mapFrame
  by_cases small : addr < 2 ^ 47
  · rw [if_pos small]
    cases result : m.identityMap k (addr / 0x200000) with
    | ok k' => exact ⟨small, m.ok_mapped result⟩
    | pageAlreadyMapped k' =>
      obtain ⟨same, before⟩ := m.already_mapped result
      refine ⟨small, fun f => (same f).trans ?_⟩
      exact (or_iff_left_of_imp fun here => here ▸ before).symm
    | failed => trivial
  · rw [if_neg small]
    trivial

theorem mapAddr_mapped {k k' : K} {addr : Nat} (run : m.mapAddr k addr = some k') (f : Nat) :
    m.mapped k' f ↔ m.mapped k f ∨ f = addr / 0x200000 := by
  unfold mapAddr at run
  split at run
  · rename_i out
    cases run
    exact ((m.mapFrame_wp).ok out).2 f
  · cases run

/-- The loops map whole 2 MiB frames, one after the other. -/
theorem mapLoop_mapped {k k' : K} {base first n : Nat} (aligned : base % 0x200000 = 0)
    (run : m.mapLoop k base first n = some k') (f : Nat) :
    m.mapped k' f ↔ m.mapped k f ∨ (base / 0x200000 + first ≤ f ∧ f < base / 0x200000 + first + n) := by
  induction n generalizing k first with
  | zero =>
    cases run
    exact (or_iff_left (by omega)).symm
  | succ n ih =>
    obtain ⟨middle, one, rest⟩ := Option.bind_eq_some_iff.mp run
    rw [ih rest, m.mapAddr_mapped one, or_assoc]
    refine or_congr_right ?_
    omega

/-- What is mapped after `memory::init`, if the low 1 GiB was before it. -/
theorem memoryInit_mapped {k k' : K} {map : MemoryMap} (low : ∀ f, m.mapped k f ↔ f < 512)
    (run : m.memoryInit k map = some k') (f : Nat) :
    m.mapped k' f ↔ f < 512 ∨ (2032 ≤ f ∧ f < 2040) ∨
      f < 512 + ((totalFreeRam map).toNat - 0x40000000) / 0x200000 := by
  obtain ⟨middle, device, rest⟩ := Option.bind_eq_some_iff.mp run
  have window := m.mapLoop_mapped (by decide) device f
  split at rest
  · rename_i small
    cases rest
    have total : (totalFreeRam map).toNat ≤ 0x40000000 := UInt64.le_iff_toNat_le.mp small
    rw [window, low]
    omega
  · rename_i large
    rw [m.mapLoop_mapped (by decide) rest, window, low, totalRange_toNat large]
    omega

/-- Every frame handed out by the allocator lies in an identity-mapped page. -/
def FramesMapped (k : K) (map : MemoryMap) (reservedPages : Nat) : Prop :=
  ∀ start, FrameAlloc.init map reservedPages = some start →
    ∀ a live freed, FrameAlloc.AllocReach start a live freed →
      ∀ run ∈ live, ∀ pfn, run.Has pfn → m.mapped k (pfn * pageSize / 0x200000)

/-- The frames handed out are all mapped just when every page that the map
leaves free lies below 1 GiB, in the device window, or below the end that
`memory::init` computes from the sum of the free lengths. -/
theorem frames_mapped_iff {k k' : K} {map : MemoryMap} (low : ∀ f, m.mapped k f ↔ f < 512)
    (run : m.memoryInit k map = some k') (reservedPages : Nat) :
    m.FramesMapped k' map reservedPages ↔
      ∀ pfn, FrameAlloc.firstPage map reservedPages ≤ pfn → pfn < FrameAlloc.topPage map →
        ¬Unavailable map pfn → pfn < 0x40000 ∨ (0xfe000 ≤ pfn ∧ pfn < 0xff000) ∨
          pfn < 0x40000 + ((totalFreeRam map).toNat - 0x40000000) / 0x200000 * 512 := by
  have page (pfn : Nat) : m.mapped k' (pfn * pageSize / 0x200000) ↔
      pfn < 0x40000 ∨ (0xfe000 ≤ pfn ∧ pfn < 0xff000) ∨
        pfn < 0x40000 + ((totalFreeRam map).toNat - 0x40000000) / 0x200000 * 512 := by
    rw [m.memoryInit_mapped low run, pageSize]
    omega
  rw [FramesMapped, FrameAlloc.handed_out_all_iff map reservedPages fun pfn => m.mapped k' (pfn * pageSize / 0x200000)]
  constructor
  · intro mapped pfn lower upper available
    exact (page pfn).mp (mapped pfn lower upper available)
  · intro covered pfn lower upper available
    exact (page pfn).mpr (covered pfn lower upper available)

/-- A mapper that records the mapped frames in a list and never runs out of
memory for page tables. -/
def listMapper : IdentityMapper (List Nat) where
  mapped k frame := frame ∈ k
  identityMap k frame := if frame ∈ k then .pageAlreadyMapped k else .ok (frame :: k)
  ok_mapped := by
    intro k k' frame result f
    split at result
    · cases result
    · cases result
      rw [List.mem_cons, or_comm]
  already_mapped := by
    intro k k' frame result
    split at result
    · rename_i member
      cases result
      exact ⟨fun _ => Iff.rfl, member⟩
    · cases result

theorem listMapper_mapFrame (k : List Nat) {addr : Nat} (small : addr < 2 ^ 47) :
    ∃ k', listMapper.mapFrame addr k = some (.ok (), k') := by
  rw [mapFrame, if_pos small]
  by_cases member : addr / 0x200000 ∈ k
  · exact ⟨k, by simp only [listMapper, member, if_true]⟩
  · exact ⟨_, by simp only [listMapper, member, if_false]; rfl⟩

theorem listMapper_mapLoop (k : List Nat) {base first n : Nat}
    (bound : base + (first + n) * 0x200000 ≤ 2 ^ 47) : ∃ k', listMapper.mapLoop k base first n = some k' := by
  induction n generalizing k first with
  | zero => exact ⟨k, rfl⟩
  | succ n ih =>
    obtain ⟨middle, frame⟩ := listMapper_mapFrame k (show base + first * 0x200000 < 2 ^ 47 by omega)
    have one : listMapper.mapAddr k (base + first * 0x200000) = some middle := by rw [mapAddr, frame]
    have next : base + (first + 1 + n) * 0x200000 ≤ 2 ^ 47 := by
      rw [Nat.add_assoc, Nat.add_comm 1 n]
      exact bound
    obtain ⟨k', rest⟩ := ih middle next
    exact ⟨k', by rw [mapLoop, one, Option.bind_some, rest]⟩

theorem listMapper_memoryInit (k : List Nat) {map : MemoryMap} (bound : (totalFreeRam map).toNat ≤ 2 ^ 47) :
    ∃ k', listMapper.memoryInit k map = some k' := by
  obtain ⟨middle, device⟩ := listMapper_mapLoop k (by decide : 0xfe000000 + (0 + 8) * 0x200000 ≤ 2 ^ 47)
  rw [memoryInit, device, Option.bind_some]
  split
  · exact ⟨middle, rfl⟩
  · refine listMapper_mapLoop middle ?_
    rw [totalRange_toNat (by assumption)]
    omega

/-- With 64 MiB of RAM every frame lies in the low mapping. -/
theorem frames_mapped_small_map :
    ∃ k', listMapper.memoryInit (List.range 512) [⟨0, 0x4000000, .freeRAM⟩] = some k' ∧
      listMapper.FramesMapped k' [⟨0, 0x4000000, .freeRAM⟩] 0x1e00 := by
  obtain ⟨k', run⟩ := listMapper_memoryInit (List.range 512)
    (by decide : (totalFreeRam [⟨0, 0x4000000, .freeRAM⟩]).toNat ≤ 2 ^ 47)
  refine ⟨k', run, (listMapper.frames_mapped_iff (fun f => List.mem_range) run 0x1e00).mpr ?_⟩
  intro pfn _ upper _
  have top : FrameAlloc.topPage [⟨0, 0x4000000, .freeRAM⟩] = 0x4000 := rfl
  omega

/-- With 1 GiB and 1 MiB of RAM the page at 1 GiB can be handed out, and
nothing maps it: the last megabyte is cut off by the division. -/
theorem frame_handed_out_unmapped :
    ∃ k', listMapper.memoryInit (List.range 512) [⟨0, 0x40100000, .freeRAM⟩] = some k' ∧
      ∃ start a live freed run, FrameAlloc.init [⟨0, 0x40100000, .freeRAM⟩] 0x1e00 = some start ∧
        FrameAlloc.AllocReach start a live freed ∧ run ∈ live ∧ run.Has 0x40000 ∧
        ¬listMapper.mapped k' (0x40000 * pageSize / 0x200000) := by
  obtain ⟨k', run⟩ := listMapper_memoryInit (List.range 512)
    (by decide : (totalFreeRam [⟨0, 0x40100000, .freeRAM⟩]).toNat ≤ 2 ^ 47)
  obtain ⟨start, boot⟩ : ∃ start, FrameAlloc.init [⟨0, 0x40100000, .freeRAM⟩] 0x1e00 = some start :=
    FrameAlloc.init_isSome ⟨_, List.mem_cons_self .., rfl⟩ 0x1e00
  have free : ¬Unavailable [⟨0, 0x40100000, .freeRAM⟩] 0x40000 := by simp [Unavailable]
  obtain ⟨a, live, freed, reach, owner, member, has⟩ :=
    ((FrameAlloc.init_initial boot).handed_out_iff 0x40000).mpr ⟨by decide, by decide, free⟩
  refine ⟨k', run, start, a, live, freed, owner, boot, reach, member, has, ?_⟩
  rw [listMapper.memoryInit_mapped (fun f => List.mem_range) run]
  decide

end IdentityMapper

end ProkaKernel
