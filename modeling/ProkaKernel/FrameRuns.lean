import ProkaKernel.FrameAlloc
import Mathlib.Data.List.Perm.Basic

namespace ProkaKernel

/-- A run of frames as `allocate_contiguous` hands it out. -/
structure Run where
  start : Nat
  count : Nat
  deriving DecidableEq

def Run.Has (run : Run) (pfn : Nat) : Prop := run.start ≤ pfn ∧ pfn < run.start + run.count

def Run.Disjoint (run other : Run) : Prop := ∀ pfn, run.Has pfn → ¬other.Has pfn

theorem Run.Disjoint.symm {run other : Run} (disjoint : run.Disjoint other) : other.Disjoint run :=
  fun pfn here there => disjoint pfn there here

/-- The page lies in the rounded range of an entry that is not free RAM. -/
def Unavailable (map : MemoryMap) (pfn : Nat) : Prop :=
  ∃ d ∈ map, d.memType ≠ .freeRAM ∧ divCeil d.baseAddr.toNat pageSize ≤ pfn ∧
    pfn < divCeil d.baseAddr.toNat pageSize + divCeil d.length.toNat pageSize

namespace FrameAlloc

theorem markUnavailable_length (bitmap : List UInt8) (desc : MemoryEntry) :
    (markUnavailable bitmap desc).length = bitmap.length := by
  unfold markUnavailable
  split
  · exact setRun_length ..
  · rfl

theorem foldl_markUnavailable_length (map : MemoryMap) (bitmap : List UInt8) :
    (map.foldl markUnavailable bitmap).length = bitmap.length := by
  induction map generalizing bitmap with
  | nil => rfl
  | cons desc map ih => rw [List.foldl_cons, ih, markUnavailable_length]

theorem foldl_markUnavailable_used (map : MemoryMap) (bitmap : List UInt8) (q : Nat) :
    Used (map.foldl markUnavailable bitmap) q ↔ Used bitmap q ∨ Unavailable map q := by
  induction map generalizing bitmap with
  | nil => exact (or_iff_left (by rintro ⟨_, member, _⟩; cases member)).symm
  | cons desc map ih =>
    have split : Unavailable (desc :: map) q ↔ (desc.memType ≠ .freeRAM ∧
        divCeil desc.baseAddr.toNat pageSize ≤ q ∧
        q < divCeil desc.baseAddr.toNat pageSize + divCeil desc.length.toNat pageSize) ∨ Unavailable map q := by
      simp only [Unavailable, List.mem_cons, exists_eq_or_imp]
    rw [List.foldl_cons, ih, split, ← or_assoc]
    refine or_congr_left ?_
    unfold markUnavailable
    split
    · rename_i other
      rw [setRun_one_used]
      simp only [ne_eq, other, not_false_eq_true, true_and]
    · rename_i free
      simp only [free, false_and, or_false]

/-- The allocator right after `init`. -/
structure Initial (map : MemoryMap) (reservedPages : Nat) (a : FrameAlloc) : Prop where
  top : ∃ maxPhys, maxPhysAddr map = some maxPhys ∧ a.maxPage = divCeil maxPhys pageSize
  reserved : a.reserved = reservedPages
  selfUsedPage : a.selfUsedPage = divCeil (divCeil a.maxPage 8) pageSize
  pos : a.pos = a.reserved + a.selfUsedPage
  length : a.bitmap.length = divCeil a.maxPage 8
  used : ∀ q, Used a.bitmap q ↔
    divCeil a.maxPage 8 ≤ q / 8 ∨ Unavailable map q ∨ q < a.reserved + a.selfUsedPage

theorem init_initial {map : MemoryMap} {reservedPages : Nat} {a : FrameAlloc}
    (boot : init map reservedPages = some a) : Initial map reservedPages a := by
  obtain ⟨maxPhys, found, rfl⟩ := Option.map_eq_some_iff.mp boot
  refine ⟨⟨maxPhys, found, rfl⟩, rfl, rfl, rfl, ?_, fun q => ?_⟩
  · simp only [setRun_length, foldl_markUnavailable_length, List.length_replicate]
  · simp only [setRun_one_used, foldl_markUnavailable_used]
    rw [used_iff, List.length_replicate, Bitmap.test_zero]
    simp only [Bool.false_eq_true, or_false, or_assoc, Nat.zero_le, true_and, Nat.zero_add]
    refine or_congr_right (or_congr_right ?_)
    omega

theorem init_isSome {map : MemoryMap} (free : ∃ d ∈ map, d.memType = .freeRAM) (reservedPages : Nat) :
    ∃ a, init map reservedPages = some a := by
  obtain ⟨d, member, isFree⟩ := free
  cases top : maxPhysAddr map with
  | none =>
    have none := List.map_eq_nil_iff.mp (List.max?_eq_none_iff.mp top)
    have kept : d ∈ map.filter fun d => d.memType = .freeRAM :=
      List.mem_filter.mpr ⟨member, by simp only [isFree, decide_true]⟩
    rw [none] at kept
    cases kept
  | some maxPhys => exact ⟨_, by rw [init, top]; rfl⟩

theorem divCeil_eight_lt {q n : Nat} (bound : q < n) : q / 8 < divCeil n 8 := by
  unfold divCeil
  split <;> omega

/-- Below `max_page` every frame has a bit of its own. -/
theorem Initial.inside {map : MemoryMap} {reservedPages : Nat} {a : FrameAlloc}
    (initial : Initial map reservedPages a) {q : Nat} (bound : q < a.maxPage) : q / 8 < a.bitmap.length := by
  rw [initial.length]
  exact divCeil_eight_lt bound

theorem Initial.free_iff {map : MemoryMap} {reservedPages : Nat} {a : FrameAlloc}
    (initial : Initial map reservedPages a) {q : Nat} (bound : q < a.maxPage) :
    ¬Used a.bitmap q ↔ ¬Unavailable map q ∧ a.reserved + a.selfUsedPage ≤ q := by
  have inside := divCeil_eight_lt bound
  rw [initial.used, or_iff_right (by omega), not_or, Nat.not_lt]

/-- Allocations and frees after `init`, with the runs handed out and not freed
yet, and those that were freed. Each run is freed with its own start and
length, and only while it is live. -/
inductive AllocReach (start : FrameAlloc) : FrameAlloc → List Run → List Run → Prop
  | init : AllocReach start start [] []
  | allocate {a a' live freed n s} : AllocReach start a live freed → 1 ≤ n →
      a.allocateContiguous n = some (s, a') → AllocReach start a' (⟨s, n⟩ :: live) freed
  | deallocate {a live freed run} : AllocReach start a live freed → run ∈ live →
      AllocReach start (a.deallocateContiguous run.start run.count) (live.erase run) (run :: freed)

/-- The allocator against the state after `init` and the runs it still holds
as used: the live ones and those whose free was ignored. -/
structure Tracks (start a : FrameAlloc) (held : List Run) : Prop where
  maxPage : a.maxPage = start.maxPage
  reserved : a.reserved = start.reserved
  selfUsedPage : a.selfUsedPage = start.selfUsedPage
  length : a.bitmap.length = start.bitmap.length
  pos : start.reserved + start.selfUsedPage ≤ a.pos
  used : ∀ q, Used a.bitmap q ↔ Used start.bitmap q ∨ ∃ run ∈ held, run.Has q
  bounds : ∀ run ∈ held, 1 ≤ run.count ∧ start.reserved + start.selfUsedPage ≤ run.start ∧
    run.start + run.count ≤ start.maxPage
  fresh : ∀ run ∈ held, ∀ q, run.Has q → ¬Used start.bitmap q
  disjoint : held.Pairwise Run.Disjoint

section
variable {map : MemoryMap} {reservedPages : Nat} {start a : FrameAlloc} {held : List Run}

theorem Tracks.init (initial : Initial map reservedPages start) : Tracks start start [] where
  maxPage := rfl
  reserved := rfl
  selfUsedPage := rfl
  length := rfl
  pos := Nat.le_of_eq initial.pos.symm
  used q := (or_iff_left (by rintro ⟨_, member, _⟩; cases member)).symm
  bounds run member := absurd member List.not_mem_nil
  fresh run member := absurd member List.not_mem_nil
  disjoint := List.Pairwise.nil

theorem Tracks.perm {other : List Run} (tracks : Tracks start a held) (perm : held.Perm other) :
    Tracks start a other where
  maxPage := tracks.maxPage
  reserved := tracks.reserved
  selfUsedPage := tracks.selfUsedPage
  length := tracks.length
  pos := tracks.pos
  used q := by
    rw [tracks.used]
    simp only [perm.mem_iff]
  bounds run member := tracks.bounds run (perm.mem_iff.mpr member)
  fresh run member := tracks.fresh run (perm.mem_iff.mpr member)
  disjoint := (perm.pairwise_iff Run.Disjoint.symm).mp tracks.disjoint

/-- The region below `reserved + self_used_page` is never handed out: both
scans start above `reserved`, and the pages of the bitmap stay marked. -/
theorem Tracks.allocated_above (tracks : Tracks start a held) (initial : Initial map reservedPages start)
    {n s : Nat} (positive : 1 ≤ n) (from_ : a.pos ≤ s ∨ a.reserved ≤ s)
    (free : ∀ i, s ≤ i → i < s + n → ¬Used a.bitmap i) : start.reserved + start.selfUsedPage ≤ s := by
  rcases from_ with above | above
  · exact Nat.le_trans tracks.pos above
  · by_contra below
    have mine : Used a.bitmap s := (tracks.used s).mpr
      (Or.inl ((initial.used s).mpr (Or.inr (Or.inr (Nat.lt_of_not_le below)))))
    exact free s (Nat.le_refl _) (by omega) mine

theorem Tracks.allocate (tracks : Tracks start a held) (initial : Initial map reservedPages start)
    {a' : FrameAlloc} {n s : Nat} (positive : 1 ≤ n) (run : a.allocateContiguous n = some (s, a')) :
    Tracks start a' (⟨s, n⟩ :: held) := by
  obtain ⟨from_, bound, free, rfl⟩ := allocateContiguous_some run
  have above := tracks.allocated_above initial positive from_ free
  have unused (q : Nat) (here : Run.Has ⟨s, n⟩ q) : ¬(Used start.bitmap q ∨ ∃ run ∈ held, run.Has q) :=
    fun used => free q here.1 here.2 ((tracks.used q).mpr used)
  refine ⟨tracks.maxPage, tracks.reserved, tracks.selfUsedPage, (setRun_length ..).trans tracks.length,
    Nat.le_trans tracks.pos (Nat.le_add_right ..), fun q => ?_, ?_, ?_, ?_⟩
  · rw [setRun_one_used, tracks.used, or_assoc, or_comm (a := ∃ run ∈ held, run.Has q)]
    simp only [List.mem_cons, exists_eq_or_imp, Run.Has]
  · refine List.forall_mem_cons.mpr ⟨⟨positive, above, ?_⟩, tracks.bounds⟩
    rw [← tracks.maxPage]
    exact bound
  · exact List.forall_mem_cons.mpr ⟨fun q here used => unused q here (Or.inl used), tracks.fresh⟩
  · refine List.pairwise_cons.mpr ⟨fun other member q here there => ?_, tracks.disjoint⟩
    exact unused q here (Or.inr ⟨other, member, there⟩)

/-- A free above the protected region gives back exactly its run. -/
theorem Tracks.release {run : Run} (tracks : Tracks start a (run :: held))
    (initial : Initial map reservedPages start) (above : start.reserved + start.selfUsedPage < run.start) :
    Tracks start (a.deallocateContiguous run.start run.count) held := by
  have freed : a.deallocateContiguous run.start run.count =
      { a with bitmap := setRun a.bitmap run.start run.count 0 } := by
    rw [deallocateContiguous, if_neg]
    rw [tracks.reserved, tracks.selfUsedPage]
    omega
  obtain ⟨apart, rest⟩ := List.pairwise_cons.mp tracks.disjoint
  obtain ⟨_, _, bound⟩ := tracks.bounds run (List.mem_cons_self ..)
  rw [freed]
  refine ⟨tracks.maxPage, tracks.reserved, tracks.selfUsedPage, (setRun_length ..).trans tracks.length,
    tracks.pos, fun q => ?_, fun other member => tracks.bounds other (List.mem_cons_of_mem _ member),
    fun other member => tracks.fresh other (List.mem_cons_of_mem _ member), rest⟩
  change Used (setRun a.bitmap run.start run.count 0) q ↔ _
  rw [setRun_zero_used, tracks.used]
  by_cases here : run.Has q
  · have inside : ¬a.bitmap.length ≤ q / 8 := by
      have bit := initial.inside (Nat.lt_of_lt_of_le here.2 bound)
      rw [tracks.length]
      omega
    refine iff_of_false (fun both => both.2.elim (fun out => out here) inside) ?_
    rintro (used | ⟨other, member, there⟩)
    · exact tracks.fresh run (List.mem_cons_self ..) q here used
    · exact apart other member q here there
  · have out : ¬(run.start ≤ q ∧ q < run.start + run.count) := here
    rw [and_iff_left (Or.inl out)]
    simp only [List.mem_cons, exists_eq_or_imp, here, false_or]

end

/-- The freed runs that the guard of `deallocate_contiguous` kept as used. -/
def ignored (start : FrameAlloc) (freed : List Run) : List Run :=
  freed.filter fun run => run.start ≤ start.reserved + start.selfUsedPage

theorem AllocReach.tracks {map : MemoryMap} {reservedPages : Nat} {start a : FrameAlloc} {live freed : List Run}
    (initial : Initial map reservedPages start) (reach : AllocReach start a live freed) :
    Tracks start a (live ++ ignored start freed) := by
  induction reach with
  | init => exact Tracks.init initial
  | allocate _ positive run ih => exact ih.allocate initial positive run
  | @deallocate a live freed run _ member ih =>
    have perm : (live ++ ignored start freed).Perm (run :: (live.erase run ++ ignored start freed)) :=
      (List.perm_cons_erase member).append_right _
    by_cases kept : run.start ≤ start.reserved + start.selfUsedPage
    · have same : a.deallocateContiguous run.start run.count = a := by
        rw [deallocateContiguous, if_pos]
        rw [ih.reserved, ih.selfUsedPage]
        exact kept
      rw [same, ignored, List.filter_cons_of_pos (by simpa using kept)]
      exact ih.perm (perm.trans List.perm_middle.symm)
    · rw [ignored, List.filter_cons_of_neg (by simpa using kept)]
      exact (ih.perm perm).release initial (by omega)

theorem AllocReach.freed_above {map : MemoryMap} {reservedPages : Nat} {start a : FrameAlloc}
    {live freed : List Run} (initial : Initial map reservedPages start) (reach : AllocReach start a live freed) :
    ∀ run ∈ freed, start.reserved + start.selfUsedPage ≤ run.start := by
  induction reach with
  | init => exact fun run member => absurd member List.not_mem_nil
  | allocate _ _ _ ih => exact ih
  | deallocate before member ih =>
    exact List.forall_mem_cons.mpr ⟨((before.tracks initial).bounds _ (List.mem_append_left _ member)).2.1, ih⟩

/-- Frames are never handed out twice: the live runs are disjoint, lie between
the protected region and `max_page`, are marked, and were free after `init`. -/
theorem live_runs_exclusive {map : MemoryMap} (free : ∃ d ∈ map, d.memType = .freeRAM) (reservedPages : Nat) :
    ∃ start, init map reservedPages = some start ∧ ∀ a live freed, AllocReach start a live freed →
      live.Pairwise Run.Disjoint ∧ ∀ run ∈ live, ∀ pfn, run.Has pfn →
        a.reserved + a.selfUsedPage ≤ pfn ∧ pfn < a.maxPage ∧
        Bitmap.test a.bitmap pfn = true ∧ Bitmap.test start.bitmap pfn = false := by
  obtain ⟨start, boot⟩ := init_isSome free reservedPages
  have initial := init_initial boot
  refine ⟨start, boot, fun a live freed reach => ?_⟩
  have tracks := reach.tracks initial
  refine ⟨(List.pairwise_append.mp tracks.disjoint).1, fun run member pfn has => ?_⟩
  have held := List.mem_append_left (ignored start freed) member
  obtain ⟨_, lower, upper⟩ := tracks.bounds run held
  have bound : pfn < start.maxPage := Nat.lt_of_lt_of_le has.2 upper
  have inside := initial.inside bound
  have used := (used_iff _ _).mp ((tracks.used pfn).mpr (Or.inr ⟨run, held, has⟩))
  have unused := tracks.fresh run held pfn has
  rw [used_iff, not_or, Bool.not_eq_true] at unused
  refine ⟨?_, tracks.maxPage ▸ bound, used.resolve_left ?_, unused.2⟩
  · rw [tracks.reserved, tracks.selfUsedPage]
    exact Nat.le_trans lower has.1
  · rw [tracks.length]
    omega

/-- A machine with 64 MiB of RAM of which the second half is not usable. -/
theorem live_runs_exclusive_small_map :
    ∃ start, init [⟨0, 0x2000000, .freeRAM⟩, ⟨0x2000000, 0x2000000, .other 0⟩] 0x1e00 = some start ∧
      ∀ a live freed, AllocReach start a live freed →
        live.Pairwise Run.Disjoint ∧ ∀ run ∈ live, ∀ pfn, run.Has pfn →
          a.reserved + a.selfUsedPage ≤ pfn ∧ pfn < a.maxPage ∧
          Bitmap.test a.bitmap pfn = true ∧ Bitmap.test start.bitmap pfn = false :=
  live_runs_exclusive ⟨_, List.mem_cons_self .., rfl⟩ 0x1e00

/-- A freed run that starts right above the protected region stays marked. -/
theorem AllocReach.boundary_kept {map : MemoryMap} {reservedPages : Nat} {start a : FrameAlloc}
    {live freed : List Run} {run : Run} (initial : Initial map reservedPages start)
    (reach : AllocReach start a live freed) (member : run ∈ freed)
    (boundary : run.start = start.reserved + start.selfUsedPage) : a.bitmap ≠ start.bitmap := by
  intro same
  have tracks := reach.tracks initial
  have kept : run ∈ live ++ ignored start freed :=
    List.mem_append_right _ (List.mem_filter.mpr ⟨member, by simpa using Nat.le_of_eq boundary⟩)
  have first : run.Has run.start := ⟨Nat.le_refl _, Nat.lt_add_of_pos_right (tracks.bounds run kept).1⟩
  have used := (tracks.used run.start).mpr (Or.inr ⟨run, kept, first⟩)
  rw [same] at used
  exact tracks.fresh run kept run.start first used

theorem Tracks.bitmap_eq {start a : FrameAlloc} (tracks : Tracks start a []) : a.bitmap = start.bitmap := by
  refine Bitmap.ext tracks.length fun q => ?_
  by_cases outside : start.bitmap.length ≤ q / 8
  · rw [Bitmap.test_beyond outside, Bitmap.test_beyond (tracks.length ▸ outside)]
  · have same := tracks.used q
    rw [used_iff, used_iff, tracks.length, or_iff_right outside, or_iff_right outside] at same
    simp only [List.not_mem_nil, false_and, exists_false, or_false] at same
    exact Bool.eq_iff_iff.mpr same

/-- After all runs were freed the bitmap is the one `init` left, unless a run
that starts right above the protected region was among them: the guard of
`deallocate_contiguous` takes that start for a protected one. -/
theorem bitmap_restored_iff {map : MemoryMap} {reservedPages : Nat} {start a : FrameAlloc} {freed : List Run}
    (boot : init map reservedPages = some start) (reach : AllocReach start a [] freed) :
    a.bitmap = start.bitmap ↔ ∀ run ∈ freed, run.start ≠ start.reserved + start.selfUsedPage := by
  have initial := init_initial boot
  constructor
  · exact fun same run member boundary => reach.boundary_kept initial member boundary same
  · intro above
    have tracks := reach.tracks initial
    have none : ignored start freed = [] := by
      refine List.filter_eq_nil_iff.mpr fun run member => ?_
      have lower := reach.freed_above initial run member
      have apart := above run member
      simp only [decide_eq_true_eq]
      omega
    rw [none, List.append_nil] at tracks
    exact tracks.bitmap_eq

/-- Where the first page above the protected region is not usable, one frame
is taken from the page after it and given back. -/
theorem bitmap_restored_above_boundary :
    ∃ start a, init [⟨0, 0x10000, .freeRAM⟩, ⟨0x1000, 0x1000, .other 0⟩] 0 = some start ∧
      start.allocateContiguous 1 = some (2, a) ∧ (a.deallocateContiguous 2 1).bitmap = start.bitmap := by
  have taken : ∃ start a, init [⟨0, 0x10000, .freeRAM⟩, ⟨0x1000, 0x1000, .other 0⟩] 0 = some start ∧
      start.allocateContiguous 1 = some (2, a) ∧ start.reserved + start.selfUsedPage = 1 :=
    ⟨_, _, rfl, rfl, rfl⟩
  obtain ⟨start, a, boot, run, boundary⟩ := taken
  have reach : AllocReach start _ _ [] := .allocate .init (Nat.le_refl 1) run
  have freed : AllocReach start (a.deallocateContiguous 2 1) [] [⟨2, 1⟩] := by
    simpa using reach.deallocate (List.mem_cons_self ..)
  exact ⟨start, a, boot, run, (bitmap_restored_iff boot freed).mpr (by simp [boundary])⟩

/-- Where the first page above the protected region is free, it is the first
frame that is handed out. -/
theorem Initial.first_frame {map : MemoryMap} {reservedPages : Nat} {start : FrameAlloc}
    (initial : Initial map reservedPages start) (bound : start.reserved + start.selfUsedPage < start.maxPage)
    (free : ¬Unavailable map (start.reserved + start.selfUsedPage)) :
    ∃ a, start.allocateContiguous 1 = some (start.reserved + start.selfUsedPage, a) := by
  have unused : ∀ i, start.pos ≤ i → i < start.pos + 1 → ¬Used start.bitmap i := by
    intro i lower upper
    have here : i = start.reserved + start.selfUsedPage := by
      rw [initial.pos] at lower upper
      omega
    rw [here]
    exact (initial.free_iff bound).mpr ⟨free, Nat.le_refl _⟩
  have run := allocateContiguous_pos (by rw [initial.pos]; exact bound) unused
  rw [initial.pos] at run
  exact ⟨_, run⟩

/-- On a machine with 64 MiB of free RAM the kernel's first frame is page 7681;
allocating and freeing it changes the bitmap. -/
theorem bitmap_changed_by_first_frame :
    ∃ start a, init [⟨0, 0x4000000, .freeRAM⟩] 0x1e00 = some start ∧
      start.allocateContiguous 1 = some (7681, a) ∧
      AllocReach start (a.deallocateContiguous 7681 1) [] [⟨7681, 1⟩] ∧
      (a.deallocateContiguous 7681 1).bitmap ≠ start.bitmap := by
  obtain ⟨start, boot⟩ : ∃ start, init [⟨0, 0x4000000, .freeRAM⟩] 0x1e00 = some start :=
    init_isSome ⟨_, List.mem_cons_self .., rfl⟩ 0x1e00
  have initial := init_initial boot
  obtain ⟨maxPhys, top, maxPage⟩ := initial.top
  cases top.symm.trans (rfl : maxPhysAddr [⟨0, 0x4000000, .freeRAM⟩] = some 0x4000000)
  have pages : start.maxPage = 16384 := maxPage
  have boundary : start.reserved + start.selfUsedPage = 7681 := by
    rw [initial.reserved, initial.selfUsedPage, pages]
    rfl
  have free : ¬Unavailable [⟨0, 0x4000000, .freeRAM⟩] (start.reserved + start.selfUsedPage) := by
    simp [Unavailable]
  obtain ⟨a, run⟩ := initial.first_frame (by omega) free
  rw [boundary] at run
  have reach : AllocReach start _ _ [] := .allocate .init (Nat.le_refl 1) run
  have freed := reach.deallocate (List.mem_cons_self ..)
  rw [List.erase_cons_head] at freed
  exact ⟨start, a, boot, run, freed, freed.boundary_kept initial (List.mem_cons_self ..) boundary.symm⟩

end FrameAlloc
end ProkaKernel
