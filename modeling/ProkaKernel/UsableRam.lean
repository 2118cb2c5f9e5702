import ProkaKernel.FrameRuns
import Mathlib.Data.Finset.Card
import Mathlib.Data.Finset.Range
import Mathlib.Data.List.Pairwise
import Mathlib.Order.Bounds.Defs

namespace ProkaKernel

/-- The bytes that an entry of the boot map describes. -/
def MemoryEntry.Has (d : MemoryEntry) (byte : Nat) : Prop :=
  d.baseAddr.toNat ≤ byte ∧ byte < d.baseAddr.toNat + d.length.toNat

instance (d : MemoryEntry) (byte : Nat) : Decidable (d.Has byte) := inferInstanceAs (Decidable (_ ∧ _))

/-- The byte lies in the page with this number. -/
def InPage (pfn byte : Nat) : Prop := pfn * pageSize ≤ byte ∧ byte < pfn * pageSize + pageSize

/-- The page lies in free RAM and shares no byte with any other entry. -/
def PageUsable (map : MemoryMap) (pfn : Nat) : Prop :=
  ∀ byte, InPage pfn byte → (∃ d ∈ map, d.memType = .freeRAM ∧ d.Has byte) ∧
    ∀ d ∈ map, d.memType ≠ .freeRAM → ¬d.Has byte

namespace FrameAlloc

/-- The number of pages up to the highest end of a free entry. -/
def topPage (map : MemoryMap) : Nat := divCeil ((maxPhysAddr map).getD 0) pageSize

/-- The first page above the reserved ones and those of the bitmap. -/
def firstPage (map : MemoryMap) (reservedPages : Nat) : Nat :=
  reservedPages + divCeil (divCeil (topPage map) 8) pageSize

theorem Initial.maxPage_eq {map : MemoryMap} {reservedPages : Nat} {a : FrameAlloc}
    (initial : Initial map reservedPages a) : a.maxPage = topPage map := by
  obtain ⟨maxPhys, top, maxPage⟩ := initial.top
  rw [maxPage, topPage, top, Option.getD_some]

theorem Initial.boundary_eq {map : MemoryMap} {reservedPages : Nat} {a : FrameAlloc}
    (initial : Initial map reservedPages a) : a.reserved + a.selfUsedPage = firstPage map reservedPages := by
  rw [initial.reserved, initial.selfUsedPage, initial.maxPage_eq, firstPage]

theorem init_of_topPage {map : MemoryMap} (above : 0 < topPage map) (reservedPages : Nat) :
    ∃ start, init map reservedPages = some start := by
  cases top : maxPhysAddr map with
  | none =>
    rw [topPage, top] at above
    exact absurd above (Nat.not_lt_zero _)
  | some maxPhys => exact ⟨_, by rw [init, top]; rfl⟩

/-- The pages below `max_page` that are still free. -/
def freePages (a : FrameAlloc) : Finset Nat := (Finset.range a.maxPage).filter fun q => ¬Used a.bitmap q

theorem freePages_decrease {a a' : FrameAlloc} {n s : Nat} (positive : 1 ≤ n)
    (run : a.allocateContiguous n = some (s, a')) : (freePages a').card < (freePages a).card := by
  obtain ⟨_, bound, free, rfl⟩ := allocateContiguous_some run
  refine Finset.card_lt_card (Finset.ssubset_iff_of_subset (fun q member => ?_) |>.mpr ⟨s, ?_, ?_⟩)
  · simp only [freePages, Finset.mem_filter, setRun_one_used, not_or] at member ⊢
    exact ⟨member.1, member.2.1⟩
  · exact Finset.mem_filter.mpr ⟨Finset.mem_range.mpr (by omega), free s (Nat.le_refl _) (by omega)⟩
  · simp only [freePages, Finset.mem_filter, setRun_one_used, not_or, not_and]
    intro _ _
    omega

/-- Taking single frames for as long as there are any ends in a refusal. -/
theorem AllocReach.exhaust {start a : FrameAlloc} {live : List Run} (reach : AllocReach start a live []) :
    ∃ a' live', AllocReach start a' live' [] ∧ a'.allocateContiguous 1 = none := by
  cases more : a.allocateContiguous 1 with
  | none => exact ⟨a, live, reach, more⟩
  | some result =>
    have fewer := freePages_decrease (Nat.le_refl 1) more
    exact (AllocReach.allocate reach (Nat.le_refl 1) more).exhaust
termination_by (freePages a).card

/-- The frames that can be handed out are those that `init` left free. -/
theorem Initial.handed_out_iff {map : MemoryMap} {reservedPages : Nat} {start : FrameAlloc}
    (initial : Initial map reservedPages start) (pfn : Nat) :
    (∃ a live freed, AllocReach start a live freed ∧ ∃ run ∈ live, run.Has pfn) ↔
      firstPage map reservedPages ≤ pfn ∧ pfn < topPage map ∧ ¬Unavailable map pfn := by
  rw [← initial.boundary_eq, ← initial.maxPage_eq]
  constructor
  · rintro ⟨a, live, freed, reach, run, member, has⟩
    have tracks := reach.tracks initial
    have held := List.mem_append_left (ignored start freed) member
    obtain ⟨_, lower, upper⟩ := tracks.bounds run held
    have bound := Nat.lt_of_lt_of_le has.2 upper
    have free := (initial.free_iff bound).mp (tracks.fresh run held pfn has)
    exact ⟨Nat.le_trans lower has.1, bound, free.1⟩
  · rintro ⟨lower, bound, available⟩
    obtain ⟨a, live, reach, refused⟩ := AllocReach.exhaust (.init : AllocReach start start [] [])
    have tracks := reach.tracks initial
    have above : a.reserved ≤ pfn := by
      rw [tracks.reserved]
      omega
    obtain ⟨i, left, right, used⟩ := allocateContiguous_none refused above (by rw [tracks.maxPage]; omega)
    have here : i = pfn := by omega
    rw [here, tracks.used] at used
    have free := (initial.free_iff bound).mpr ⟨available, lower⟩
    obtain ⟨run, member, has⟩ := used.resolve_left free
    rw [ignored, List.filter_nil, List.append_nil] at member
    exact ⟨a, live, [], reach, run, member, has⟩

/-- A property holds of all frames that are ever handed out just when it holds
of the pages that the map leaves free. -/
theorem handed_out_all_iff (map : MemoryMap) (reservedPages : Nat) (P : Nat → Prop) :
    (∀ start, init map reservedPages = some start → ∀ a live freed, AllocReach start a live freed →
        ∀ run ∈ live, ∀ pfn, run.Has pfn → P pfn) ↔
      ∀ pfn, firstPage map reservedPages ≤ pfn → pfn < topPage map → ¬Unavailable map pfn → P pfn := by
  constructor
  · intro all pfn lower upper available
    obtain ⟨start, boot⟩ := init_of_topPage (Nat.zero_lt_of_lt upper) reservedPages
    obtain ⟨a, live, freed, reach, run, member, has⟩ :=
      ((init_initial boot).handed_out_iff pfn).mpr ⟨lower, upper, available⟩
    exact all start boot a live freed reach run member pfn has
  · intro all start boot a live freed reach run member pfn has
    obtain ⟨lower, upper, available⟩ :=
      ((init_initial boot).handed_out_iff pfn).mp ⟨a, live, freed, reach, run, member, has⟩
    exact all pfn lower upper available

/-- Every frame of every run handed out after `init` is usable RAM. -/
def OnlyUsable (map : MemoryMap) (reservedPages : Nat) : Prop :=
  ∀ start, init map reservedPages = some start → ∀ a live freed, AllocReach start a live freed →
    ∀ run ∈ live, ∀ pfn, run.Has pfn → PageUsable map pfn

/-- Rounding covers an entry except for the page in which it starts off a page
boundary: the start is rounded up, and so is the length. -/
theorem entry_in_page_iff {map : MemoryMap} {pfn : Nat} {d : MemoryEntry} (available : ¬Unavailable map pfn)
    (member : d ∈ map) (other : d.memType ≠ .freeRAM) :
    (∃ byte, InPage pfn byte ∧ d.Has byte) ↔
      0 < d.length.toNat ∧ d.baseAddr.toNat / pageSize = pfn ∧ d.baseAddr.toNat % pageSize ≠ 0 := by
  have outside : ¬(divCeil d.baseAddr.toNat pageSize ≤ pfn ∧
      pfn < divCeil d.baseAddr.toNat pageSize + divCeil d.length.toNat pageSize) :=
    fun inside => available ⟨d, member, other, inside⟩
  rw [divCeil_page, divCeil_page] at outside
  simp only [InPage, MemoryEntry.Has, pageSize]
  constructor
  · rintro ⟨byte, inPage, has⟩
    omega
  · rintro ⟨positive, page, unaligned⟩
    exact ⟨d.baseAddr.toNat, by omega, by omega⟩

/-- A page that no rounded range covers is usable just when it lies in free RAM
and no other entry starts inside it. -/
theorem pageUsable_iff {map : MemoryMap} {pfn : Nat} (available : ¬Unavailable map pfn) : PageUsable map pfn ↔
    (∀ byte, InPage pfn byte → ∃ d ∈ map, d.memType = .freeRAM ∧ d.Has byte) ∧
    ∀ d ∈ map, d.memType ≠ .freeRAM → 0 < d.length.toNat →
      ¬(d.baseAddr.toNat / pageSize = pfn ∧ d.baseAddr.toNat % pageSize ≠ 0) := by
  constructor
  · refine fun usable => ⟨fun byte inPage => (usable byte inPage).1, fun d member other positive starts => ?_⟩
    obtain ⟨byte, inPage, has⟩ := (entry_in_page_iff available member other).mpr ⟨positive, starts⟩
    exact (usable byte inPage).2 d member other has
  · refine fun clean byte inPage => ⟨clean.1 byte inPage, fun d member other has => ?_⟩
    obtain ⟨positive, starts⟩ := (entry_in_page_iff available member other).mp ⟨byte, inPage, has⟩
    exact clean.2 d member other positive starts

/-- Only usable RAM is handed out just when every page between the protected
region and the top that no other entry's rounded range covers lies in free
RAM, and no entry that is not free starts inside such a page. -/
theorem only_usable_iff (map : MemoryMap) (reservedPages : Nat) :
    OnlyUsable map reservedPages ↔
      ∀ pfn, firstPage map reservedPages ≤ pfn → pfn < topPage map → ¬Unavailable map pfn →
        (∀ byte, InPage pfn byte → ∃ d ∈ map, d.memType = .freeRAM ∧ d.Has byte) ∧
        ∀ d ∈ map, d.memType ≠ .freeRAM → 0 < d.length.toNat →
          ¬(d.baseAddr.toNat / pageSize = pfn ∧ d.baseAddr.toNat % pageSize ≠ 0) := by
  rw [OnlyUsable, handed_out_all_iff]
  constructor
  · intro usable pfn lower upper available
    exact (pageUsable_iff available).mp (usable pfn lower upper available)
  · intro clean pfn lower upper available
    exact (pageUsable_iff available).mpr (clean pfn lower upper available)

/-- Free RAM below 16 MiB and from 48 to 64 MiB, nothing said about the gap:
the first frame handed out lies in the gap. -/
theorem gap_frame_handed_out :
    ∃ start a, init [⟨0, 0x1000000, .freeRAM⟩, ⟨0x3000000, 0x1000000, .freeRAM⟩] 0x1e00 = some start ∧
      start.allocateContiguous 1 = some (7681, a) ∧ AllocReach start a [⟨7681, 1⟩] [] ∧
      ¬PageUsable [⟨0, 0x1000000, .freeRAM⟩, ⟨0x3000000, 0x1000000, .freeRAM⟩] 7681 := by
  obtain ⟨start, boot⟩ : ∃ start,
      init [⟨0, 0x1000000, .freeRAM⟩, ⟨0x3000000, 0x1000000, .freeRAM⟩] 0x1e00 = some start :=
    init_isSome ⟨_, List.mem_cons_self .., rfl⟩ 0x1e00
  have initial := init_initial boot
  have pages : start.maxPage = 16384 := initial.maxPage_eq
  have boundary : start.reserved + start.selfUsedPage = 7681 := initial.boundary_eq
  obtain ⟨a, run⟩ := initial.first_frame (by omega) (by simp [Unavailable])
  rw [boundary] at run
  refine ⟨start, a, boot, run, .allocate .init (Nat.le_refl 1) run, fun usable => ?_⟩
  obtain ⟨⟨d, member, _, has⟩, _⟩ := usable 0x1e01000 (by unfold InPage pageSize; omega)
  rcases List.mem_cons.mp member with rfl | member
  · exact absurd has (by decide)
  · cases List.mem_singleton.mp member
    exact absurd has (by decide)

/-- A map of whole pages, in any order: the entries do not overlap, and leave
no gap below the end of a free entry. -/
structure WellFormed (map : MemoryMap) : Prop where
  aligned : ∀ d ∈ map, d.baseAddr.toNat % pageSize = 0 ∧ d.length.toNat % pageSize = 0
  disjoint : map.Pairwise fun d e => ∀ byte, d.Has byte → ¬e.Has byte
  covers : ∀ d ∈ map, d.memType = .freeRAM → ∀ byte, byte < d.baseAddr.toNat + d.length.toNat → ∃ e ∈ map, e.Has byte

section
variable {map : MemoryMap} {pfn : Nat} {d e : MemoryEntry}

theorem divCeil_of_aligned {n : Nat} (aligned : n % pageSize = 0) : divCeil n pageSize = n / pageSize :=
  if_pos aligned

/-- An entry of whole pages holds a page as soon as it holds its first byte. -/
theorem WellFormed.has_iff (wellFormed : WellFormed map) (member : d ∈ map) : d.Has (pfn * pageSize) ↔
    divCeil d.baseAddr.toNat pageSize ≤ pfn ∧
      pfn < divCeil d.baseAddr.toNat pageSize + divCeil d.length.toNat pageSize := by
  obtain ⟨base, length⟩ := wellFormed.aligned d member
  rw [divCeil_of_aligned base, divCeil_of_aligned length]
  unfold pageSize at base length
  unfold MemoryEntry.Has pageSize
  omega

theorem WellFormed.same_entry (wellFormed : WellFormed map) {byte : Nat} (member : d ∈ map) (member' : e ∈ map)
    (has : d.Has byte) (has' : e.Has byte) : d = e := by
  by_contra apart
  have symmetric : Std.Symm fun x y : MemoryEntry => ∀ byte, x.Has byte → ¬y.Has byte :=
    ⟨fun x y disjoint byte there here => disjoint byte here there⟩
  exact wellFormed.disjoint.forall member member' apart byte has has'

/-- The largest end that `init` computes belongs to a free entry, and no end of
a free entry is larger, all of them as `u64`. -/
theorem maxPhysAddr_some {maxPhys : Nat} (top : maxPhysAddr map = some maxPhys) :
    (∃ d ∈ map, d.memType = .freeRAM ∧ maxPhys = (d.baseAddr.toNat + d.length.toNat) % 2 ^ 64) ∧
    ∀ d ∈ map, d.memType = .freeRAM → (d.baseAddr.toNat + d.length.toNat) % 2 ^ 64 ≤ maxPhys := by
  obtain ⟨member, largest⟩ := List.max?_eq_some_iff.mp top
  refine ⟨?_, fun d inMap free => ?_⟩
  · obtain ⟨d, kept, rfl⟩ := List.mem_map.mp member
    obtain ⟨inMap, free⟩ := List.mem_filter.mp kept
    exact ⟨d, inMap, of_decide_eq_true free, UInt64.toNat_add ..⟩
  · rw [← UInt64.toNat_add]
    exact largest _ (List.mem_map_of_mem (List.mem_filter.mpr ⟨inMap, decide_eq_true free⟩))

/-- Below `max_page` a well-formed map describes every page. -/
theorem WellFormed.described (wellFormed : WellFormed map) (below : pfn < topPage map) :
    ∃ d ∈ map, d.Has (pfn * pageSize) := by
  cases top : maxPhysAddr map with
  | none =>
    rw [topPage, top] at below
    exact absurd below (Nat.not_lt_zero _)
  | some maxPhys =>
    obtain ⟨d, member, free, same⟩ := (maxPhysAddr_some top).1
    rw [topPage, top, Option.getD_some, divCeil_page] at below
    refine wellFormed.covers d member free _ ?_
    unfold pageSize
    have wrapped := Nat.mod_le (d.baseAddr.toNat + d.length.toNat) (2 ^ 64)
    omega

theorem WellFormed.unavailable_iff (wellFormed : WellFormed map) (below : pfn < topPage map) :
    ¬Unavailable map pfn ↔ ∃ d ∈ map, d.memType = .freeRAM ∧ d.Has (pfn * pageSize) := by
  obtain ⟨d, member, has⟩ := wellFormed.described below
  constructor
  · intro available
    refine ⟨d, member, ?_, has⟩
    by_contra other
    exact available ⟨d, member, other, (wellFormed.has_iff member).mp has⟩
  · rintro ⟨e, member', free, has'⟩ ⟨f, member'', other, inside⟩
    have same := wellFormed.same_entry member' member'' has' ((wellFormed.has_iff member'').mpr inside)
    exact other (same ▸ free)

/-- The last page is the end of the highest free entry. -/
theorem WellFormed.topPage_isGreatest (wellFormed : WellFormed map) (ram : ∃ d ∈ map, d.memType = .freeRAM)
    (ends : ∀ d ∈ map, d.memType = .freeRAM → d.baseAddr.toNat + d.length.toNat < 2 ^ 64) :
    IsGreatest {page | ∃ d ∈ map, d.memType = .freeRAM ∧ page * pageSize = d.baseAddr.toNat + d.length.toNat}
      (topPage map) := by
  have whole (d : MemoryEntry) (member : d ∈ map) (free : d.memType = .freeRAM) :
      (d.baseAddr.toNat + d.length.toNat) % 2 ^ 64 = d.baseAddr.toNat + d.length.toNat ∧
        (d.baseAddr.toNat + d.length.toNat) % pageSize = 0 := by
    obtain ⟨base, length⟩ := wellFormed.aligned d member
    unfold pageSize at base length ⊢
    exact ⟨Nat.mod_eq_of_lt (ends d member free), by omega⟩
  obtain ⟨start, boot⟩ := init_isSome ram 0
  obtain ⟨maxPhys, top, _⟩ := (init_initial boot).top
  obtain ⟨⟨d, member, free, same⟩, largest⟩ := maxPhysAddr_some top
  obtain ⟨unwrapped, aligned⟩ := whole d member free
  rw [unwrapped] at same
  have pages : topPage map = maxPhys / pageSize := by
    rw [topPage, top, Option.getD_some, same]
    exact divCeil_of_aligned aligned
  rw [pages]
  refine ⟨⟨d, member, free, ?_⟩, fun page ⟨e, member', free', equal⟩ => ?_⟩
  · rw [same]
    exact Nat.div_mul_cancel (Nat.dvd_of_mod_eq_zero aligned)
  · have below := largest e member' free'
    rw [(whole e member' free').1, ← equal] at below
    exact (Nat.le_div_iff_mul_le (by decide)).mpr below

theorem getBit_zero_iff (bitmap : List UInt8) (pfn : Nat) : getBit bitmap pfn = 0 ↔ ¬Used bitmap pfn := by
  unfold Used getBit
  split
  · exact iff_of_false (by decide) fun free => free rfl
  · rw [Bitmap.shiftRight_and_one (Nat.mod_lt pfn (by decide))]
    split
    · exact iff_of_false (by decide) fun free => free rfl
    · exact iff_of_true rfl (by decide)

/-- After `init` on a well-formed map a page is free just when it lies in a
free entry above the protected region. The last page is the end of the highest
free entry, where the ends are numbers that a `u64` holds, and the pages of the
bitmap have a bit for every page. -/
theorem init_marks_pages (wellFormed : WellFormed map) (ram : ∃ d ∈ map, d.memType = .freeRAM)
    (reservedPages : Nat) : ∃ start, init map reservedPages = some start ∧
      (∀ pfn, pfn < start.maxPage → (getBit start.bitmap pfn = 0 ↔
        (∃ d ∈ map, d.memType = .freeRAM ∧ d.Has (pfn * pageSize)) ∧ reservedPages + start.selfUsedPage ≤ pfn)) ∧
      ((∀ d ∈ map, d.memType = .freeRAM → d.baseAddr.toNat + d.length.toNat < 2 ^ 64) →
        IsGreatest {page | ∃ d ∈ map, d.memType = .freeRAM ∧
          page * pageSize = d.baseAddr.toNat + d.length.toNat} start.maxPage) ∧
      start.maxPage ≤ start.selfUsedPage * pageSize * 8 := by
  obtain ⟨start, boot⟩ := init_isSome ram reservedPages
  have initial := init_initial boot
  refine ⟨start, boot, fun pfn inside => ?_, fun ends => ?_, ?_⟩
  · rw [getBit_zero_iff, initial.free_iff inside, initial.reserved]
    exact and_congr_left' (wellFormed.unavailable_iff (initial.maxPage_eq ▸ inside))
  · rw [initial.maxPage_eq]
    exact wellFormed.topPage_isGreatest ram ends
  · rw [initial.selfUsedPage, divCeil_page]
    unfold divCeil pageSize
    split <;> omega

/-- Free RAM around a hole, listed from the top down. -/
theorem init_marks_pages_hole :
    ∃ start, init [⟨0x8000, 0x8000, .freeRAM⟩, ⟨0x4000, 0x4000, .other 0⟩, ⟨0, 0x4000, .freeRAM⟩] 1 = some start ∧
      start.maxPage = 16 ∧ start.selfUsedPage = 1 ∧ getBit start.bitmap 9 = 0 ∧ getBit start.bitmap 5 ≠ 0 := by
  have wellFormed : WellFormed [⟨0x8000, 0x8000, .freeRAM⟩, ⟨0x4000, 0x4000, .other 0⟩, ⟨0, 0x4000, .freeRAM⟩] := by
    refine ⟨by decide, ?_, fun d member _ byte below => ?_⟩
    · simp only [List.pairwise_cons, List.mem_cons, List.not_mem_nil, or_false, forall_eq_or_imp, forall_eq,
        MemoryEntry.Has, UInt64.reduceToNat, false_imp_iff, implies_true, List.Pairwise.nil, and_true]
      exact ⟨⟨fun byte _ => by omega, fun byte _ => by omega⟩, fun byte _ => by omega⟩
    · simp only [List.mem_cons, List.not_mem_nil, or_false, exists_eq_or_imp, exists_eq_left, MemoryEntry.Has,
        UInt64.reduceToNat]
      have top : ∀ d ∈ [(⟨0x8000, 0x8000, .freeRAM⟩ : MemoryEntry), ⟨0x4000, 0x4000, .other 0⟩, ⟨0, 0x4000, .freeRAM⟩],
          d.baseAddr.toNat + d.length.toNat ≤ 0x10000 := by decide
      have bound := top d member
      omega
  obtain ⟨start, boot, marks, _⟩ := init_marks_pages wellFormed ⟨_, List.mem_cons_self .., rfl⟩ 1
  have pages : start.maxPage = 16 := (init_initial boot).maxPage_eq
  have used : start.selfUsedPage = 1 := by rw [(init_initial boot).selfUsedPage, pages]; rfl
  refine ⟨start, boot, pages, used, (marks 9 (by omega)).mpr ⟨⟨_, List.mem_cons_self .., rfl, by decide⟩, by omega⟩, ?_⟩
  intro free
  obtain ⟨⟨d, member, ram, has⟩, _⟩ := (marks 5 (by omega)).mp free
  revert d
  decide

end

end FrameAlloc
end ProkaKernel
