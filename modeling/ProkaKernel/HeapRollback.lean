import ProkaKernel.HeapKernel
import ProkaKernel.VecRequests

namespace ProkaKernel

/-- The capacity of a `Vec` that was new before `n` pushes. -/
def VecGrowth.room (growth : VecGrowth) : Nat → Nat
  | 0 => 0
  | n + 1 => if n < growth.room n then growth.room n else growth.next (growth.room n)

theorem VecGrowth.room_mono (growth : VecGrowth) {n n' : Nat} (le : n ≤ n') : growth.room n ≤ growth.room n' := by
  induction le with
  | refl => exact Nat.le_refl _
  | @step i _ ih =>
    refine Nat.le_trans ih ?_
    rw [VecGrowth.room]
    split
    · exact Nat.le_refl _
    · exact Nat.le_of_lt (growth.grows _)

theorem VecGrowth.room_pos (growth : VecGrowth) (n : Nat) : 0 < growth.room (n + 1) := by
  rw [VecGrowth.room]
  split
  · omega
  · exact Nat.lt_of_le_of_lt (Nat.zero_le _) (growth.grows _)

/-- The frames that a call of `allocate` has taken before page `i` of its
range: those of the pages, the missing tables, and the list of the pages. -/
def heapCost (m : Mem) (growth : VecGrowth) (root base i : Nat) : Nat :=
  i + tablesFor m root base i + divCeil (growth.room i * 8) pageSize

theorem heapCost_zero (m : Mem) (growth : VecGrowth) (root base : Nat) : heapCost m growth root base 0 = 0 := by
  simp [heapCost, tablesFor, VecGrowth.room, divCeil_page]

theorem heapCost_mono (m : Mem) (growth : VecGrowth) (root base : Nat) {i i' : Nat} (le : i ≤ i') :
    heapCost m growth root base i ≤ heapCost m growth root base i' := by
  have tables := tablesFor_mono m root base le
  have room := growth.room_mono le
  rw [heapCost, heapCost, divCeil_page, divCeil_page]
  omega

section
variable {mapper : ExactMapper} {m m' : Mem} {a a' : FrameAlloc} {R pend : Set Nat} {root page frame flags : Nat}
  {p : List (Fin 512)}

/-- After `map_to` exactly the tables on the way to the page are there too. -/
theorem mapTo_tables (owns : Owns m a R pend) (member : root ∈ R) (bound : page < 2 ^ 35) (ok : PageFlags.Ok flags)
    (inRam : frame < 2 ^ 40) (pending : frame ∈ pend) (run : mapper.mapTo m a root page frame flags = (true, m', a'))
    (low : LowPath p) (short : p.length ≤ 3) :
    tableWalk m' root p = none ↔ tableWalk m root p = none ∧ p ∉ tablePaths page := by
  obtain ⟨middle, growth, ⟨_, q, i, t, last, free, rfl⟩ | ⟨refused, _⟩⟩ :=
    mapper.mapTo_exact (owns.single member) bound ok inRam run
  · have grown := (growth.growth bound).grown owns member
    have spreads := (growth.growth bound).spreads owns member
    have attach := last.attach member bound ok free inRam
    have unplaced := (grown.owns.spaces.pending frame pending).2
    have walk : tableWalk (middle.setEntry t i (pte frame flags)) root p = tableWalk middle root p := by
      refine Option.ext fun y => (grown.owns.spaces.walk_attach lowPath_closed attach unplaced member low y).trans
        (or_iff_left ?_)
      rintro ⟨_, rfl, _⟩
      have length := last.length
      rw [List.length_append, List.length_singleton] at short
      omega
    rw [walk]
    constructor
    · intro missing
      refine ⟨Option.eq_none_iff_forall_ne_some.mpr fun y there => ?_, fun onWay => ?_⟩
      · rw [spreads.walks p y low there] at missing
        cases missing
      · obtain ⟨n, lower, upper, rfl⟩ := mem_tablePaths.mp onWay
        have complete := List.countP_eq_zero.mp last.missingTables n (by
          simp only [List.mem_cons, List.not_mem_nil, or_false]
          omega)
        rw [missing] at complete
        exact complete rfl
    · rintro ⟨missing, other⟩
      refine Option.eq_none_iff_forall_ne_some.mpr fun y there => ?_
      rcases growth.walk_new owns member bound low there with old | onWay
      · rw [old] at missing
        cases missing
      · exact other onWay
  · cases refused

end

/-- The requests of the mapping loop from page `i` on, up to one that is refused
right before a page. The frame at the boundary, which is never given back, goes
to none of the pages and to no buffer of their list. -/
inductive Withdraws (growth : VecGrowth) (m : Mem) (root base : Nat) : Nat → Nat → Buffer → FrameAlloc → Prop
  | stop {left i buf a} : a.allocateContiguous 1 = none → Withdraws growth m root base (left + 1) i buf a
  | page {left i buf buf' a phys a1 a2 a'} : a.allocateContiguous 1 = some (phys, a1) →
    phys ≠ a.reserved + a.selfUsedPage → translate m root (base + i) = none →
    FrameAlloc.takeFrames (tablesFor m root base (i + 1) - tablesFor m root base i) a1 = some a2 →
    growth.push 8 i buf a2 = some (buf', a') → buf'.ptr / 4096 ≠ a.reserved + a.selfUsedPage →
    Withdraws growth m root base left (i + 1) buf' a' → Withdraws growth m root base (left + 1) i buf a

section
variable {c : Snapshot} {s : Sched} {k0 k : Kernel} {R : Set Nat} {root : Nat} {pend rest : List Nat}

theorem InCall.inRam {gone P : Set Nat} {n phys : Nat} {a : FrameAlloc}
    (call : InCall c s k0 R root gone pend rest P k) (wide : k0.alloc.maxPage ≤ 2 ^ 40)
    (run : k.alloc.allocateContiguous (n + 1) = some (phys, a)) : phys < 2 ^ 40 := by
  have inside := (FrameAlloc.allocateContiguous_some run).2.1
  have same : k.alloc.maxPage = k0.alloc.maxPage := congrArg Prod.fst call.shape
  omega

/-- The next page is as it was before the call. -/
theorem InCall.untouched {base i : Nat} (call : InCall c s k0 R root ∅ pend rest { page | page ∈ List.range' base i } k)
    (member : root ∈ R) (bound : base + i < 2 ^ 35) : translate k.mem root (base + i) = translate k0.mem root (base + i) := by
  refine call.kept root member _ bound fun both => ?_
  have upper := (List.mem_range'_1.mp both.2).2
  omega

end

namespace Kernel
open Prog

/-- The free frames are used up before some page of the range, and none of the
pages before it was mapped. -/
def RunsOut (k : Kernel) (growth : VecGrowth) (root base pages : Nat) : Prop :=
  ∃ i < pages, k.alloc.freeFrames = heapCost k.mem growth root base i ∧ ∀ j < i, translate k.mem root (base + j) = none

/-- What the mapping loop has taken before page `i`, if nothing was lost. -/
structure Counted (k0 : Kernel) (growth : VecGrowth) (root base i : Nat) (buf : Buffer) (complete : Prop) (k : Kernel) :
    Prop where
  cap : buf.cap = growth.room i
  inside : buf.ptr / 4096 + divCeil (buf.cap * 8) pageSize ≤ k0.alloc.maxPage
  tables : ∀ p, LowPath p → p.length ≤ 3 → (tableWalk k.mem root p = none ↔
    tableWalk k0.mem root p = none ∧ p ∉ (List.range' base i).flatMap tablePaths)
  frames : complete → k.alloc.freeFrames + heapCost k0.mem growth root base i = k0.alloc.freeFrames

section
variable {c : Snapshot} {s : Sched} {k0 k : Kernel} {R : Set Nat} {root base i : Nat} {rest lost : List Nat} {buf : Buffer}
  {growth : VecGrowth} {complete : Prop} {mapper : ExactMapper}

theorem Counted.start (k : Kernel) (growth : VecGrowth) (root base : Nat) : Counted k growth root base 0 {} True k where
  cap := rfl
  inside := Nat.zero_le _
  tables p _ _ := (and_iff_left List.not_mem_nil).symm
  frames _ := by rw [heapCost_zero, Nat.add_zero]

theorem Counted.next_tables (counted : Counted k0 growth root base i buf complete k) (bound : base + i < 2 ^ 35) :
    tablesFor k0.mem root base (i + 1) = tablesFor k0.mem root base i + missingTables k.mem root (base + i) := by
  refine tablesFor_succ fun p inside => ?_
  obtain ⟨n, _, upper, rfl⟩ := mem_tablePaths.mp inside
  exact counted.tables _ (path_take_low bound n) (Nat.le_trans (List.length_take_le ..) upper)

/-- What a push costs, if the old buffer is not lost. -/
theorem reserve_exact {ε : Type} {E : ε → Kernel → Prop} (growth : VecGrowth) (size len : Nat) (sized : k.alloc.Sized)
    (inside : buf.ptr / 4096 + divCeil (buf.cap * size) pageSize ≤ k.alloc.maxPage)
    (used : ∀ q ∈ buf.frames size, FrameAlloc.Used k.alloc.bitmap q) :
    wp (reserve growth size len buf)
      (fun buf' k' => buf'.cap = (if len < buf.cap then buf.cap else growth.next buf.cap) ∧
        buf'.ptr / 4096 + divCeil (buf'.cap * size) pageSize ≤ k.alloc.maxPage ∧
        ((if len < buf.cap then [] else buf.lost k.alloc size) = [] → k'.alloc.freeFrames +
          divCeil (buf'.cap * size) pageSize = k.alloc.freeFrames + divCeil (buf.cap * size) pageSize)) E k := by
  unfold reserve
  split
  · exact wp_pure ⟨rfl, inside, fun _ => rfl⟩
  · refine wp_bind (wp_newBuffer fun f a run => wp_bind (wp_dropBuffer (wp_pure ⟨rfl, ?_, fun none => ?_⟩)))
    · rw [Nat.mul_div_cancel f (by decide)]
      exact (FrameAlloc.allocateContiguous_some run).2.1
    · have taken := FrameAlloc.freeFrames_allocate run
      have shape := FrameAlloc.shape_allocate run
      show (a.deallocateContiguous _ _).freeFrames + divCeil (growth.next buf.cap * size) pageSize = _
      unfold Buffer.lost FrameAlloc.lostRun at none
      split at none
      · rename_i above
        rw [FrameAlloc.freeFrames_deallocate (sized.of_shape shape) (by rw [FrameAlloc.boundary_of_shape shape]; exact above)]
        · omega
        · have pages : a.maxPage = k.alloc.maxPage := congrArg Prod.fst shape
          rw [pages]
          exact inside
        · intro q lower upper
          obtain ⟨_, _, _, rfl⟩ := FrameAlloc.allocateContiguous_some run
          exact (FrameAlloc.setRun_one_used ..).mpr (Or.inl (used q (List.mem_range'_1.mpr ⟨lower, upper⟩)))
      · rw [List.range'_eq_nil_iff.mp none, FrameAlloc.deallocate_zero]
        omega

/-- One page more. -/
theorem Counted.page {top phys : Nat} {m : Mem} {a a' : FrameAlloc}
    (counted : Counted k0 growth root (top / 4096) i buf complete k)
    (call : InCall c s k0 R root ∅ (buf.frames 8 ++ lost) rest { page | page ∈ List.range' (top / 4096) i } k)
    (member : root ∈ R) (sized : k0.alloc.Sized) (wide : k0.alloc.maxPage ≤ 2 ^ 40)
    (run : k.alloc.allocateContiguous 1 = some (phys, a)) (bound : top / 4096 + i < 2 ^ 35)
    (mapped : mapper.mapTo k.mem a root (top / 4096 + i) phys heapFlags = (true, m, a')) :
    wp (reserve growth 8 i buf)
      (fun buf' k' => InCall c s k0 R root ∅ (buf'.frames 8 ++ ((if i < buf.cap then [] else buf.lost k0.alloc 8) ++ lost))
          rest { page | page ∈ List.range' (top / 4096) (i + 1) } k' ∧
        Counted k0 growth root (top / 4096) (i + 1) buf'
          ((if i < buf.cap then [] else buf.lost k0.alloc 8) = [] ∧ complete) k')
      (fun (_ : Int) _ => False) { k with mem := m, alloc := a' } := by
  have after := mapPage_call mapper call member run bound mapped
  have taken : InCall c s k0 R root ∅ (phys :: (buf.frames 8 ++ lost)) rest _ { k with alloc := a } := call.take run
  have pages : a'.maxPage = k0.alloc.maxPage := congrArg Prod.fst after.shape
  have inRam := call.inRam wide run
  have tables {p : List (Fin 512)} (low : LowPath p) (short : p.length ≤ 3) :=
    mapTo_tables taken.trail.stage.owns member bound (by decide) inRam (List.mem_cons_self ..) mapped low short
  have cost := FrameAlloc.freeFrames_allocate run
  have built : a.freeFrames = a'.freeFrames + missingTables k.mem root (top / 4096 + i) :=
    (mapTo_counts_ok taken.trail.stage.owns member bound (by decide) inRam mapped).2
  have more := counted.next_tables bound
  have used : ∀ q ∈ buf.frames 8, FrameAlloc.Used a'.bitmap q := fun q held =>
    (after.trail.stage.owns.spaces.pending q (List.mem_append_left _ (List.mem_append_left _ held))).1.1
  have costs := reserve_exact (E := fun (_ : Int) _ => False) (k := { k with mem := m, alloc := a' }) growth 8 i
    (sized.of_shape after.shape) (pages ▸ counted.inside) used
  refine ((reserve_call growth 8 i after).and costs).mono ?_ fun _ _ both => both.1
  rintro buf' k' ⟨⟨call', same⟩, cap, inside, frames⟩
  refine ⟨call', ?_, pages ▸ inside, fun p low short => ?_, fun complete => ?_⟩
  · rw [cap, VecGrowth.room, counted.cap]
  · rw [same, tables low short, counted.tables p low short, List.range'_1_concat, List.flatMap_append,
      List.flatMap_singleton, List.mem_append, not_or, and_assoc]
  · have kept : buf.lost a' 8 = buf.lost k0.alloc 8 := FrameAlloc.lostRun_of_shape after.shape ..
    have pushed := frames (kept ▸ complete.1)
    have before := counted.frames complete.2
    have capacity : buf'.cap = growth.room (i + 1) := by rw [cap, VecGrowth.room, counted.cap]
    rw [capacity, counted.cap] at pushed
    change k'.alloc.freeFrames + _ = a'.freeFrames + _ at pushed
    unfold heapCost at before ⊢
    omega

/-- Nothing is lost when the loop gives up now. -/
def Clean (k0 : Kernel) (root : Nat) (pages : List Nat) (buf : Buffer) (lost : List Nat) (k : Kernel) : Prop :=
  lost = [] ∧ buf.lost k0.alloc 8 = [] ∧
    ∀ page ∈ pages, translate k.mem root page ≠ some (k0.alloc.reserved + k0.alloc.selfUsedPage)

theorem Clean.start (k0 k : Kernel) (root : Nat) : Clean k0 root [] {} [] k := by
  refine ⟨rfl, ?_, fun _ none => absurd none List.not_mem_nil⟩
  unfold Buffer.lost FrameAlloc.lostRun
  split <;> rfl

/-- One page more loses nothing if neither its frame nor the buffer is at the
boundary. -/
theorem clean_page {top phys : Nat} {m : Mem} {a a1 a2 : FrameAlloc} {k' : Kernel} {buf' : Buffer}
    (call : InCall c s k0 R root ∅ (buf.frames 8 ++ lost) rest { page | page ∈ List.range' (top / 4096) i } k)
    (call' : InCall c s k0 R root ∅ (buf'.frames 8 ++ ((if i < buf.cap then [] else buf.lost k0.alloc 8) ++ lost)) rest
      { page | page ∈ List.range' (top / 4096) (i + 1) } k')
    (filled : 0 < buf'.cap) (member : root ∈ R) (run : k.alloc.allocateContiguous 1 = some (phys, a))
    (bound : top / 4096 + i < 2 ^ 35)
    (mapped : mapper.mapTo k.mem a root (top / 4096 + i) phys heapFlags = (true, m, a1)) (same : k'.mem = m)
    (pushed : growth.push 8 i buf a1 = some (buf', a2)) :
    Clean k0 root (List.range' (top / 4096) (i + 1)) buf' ((if i < buf.cap then [] else buf.lost k0.alloc 8) ++ lost) k' ↔
      Clean k0 root (List.range' (top / 4096) i) buf lost k ∧ phys ≠ k0.alloc.reserved + k0.alloc.selfUsedPage ∧
        buf'.ptr / 4096 ≠ k0.alloc.reserved + k0.alloc.selfUsedPage := by
  have taken : InCall c s k0 R root ∅ (phys :: (buf.frames 8 ++ lost)) rest _ { k with alloc := a } := call.take run
  obtain ⟨leaves, _⟩ := taken.trail.mapTo member bound (Or.inr (Or.inr rfl)) mapped
  have here : translate k'.mem root (top / 4096 + i) = some phys := by
    rw [same]
    exact (leaves.pages root _ phys member bound).mpr (Or.inr ⟨rfl, rfl, rfl⟩)
  have before {page : Nat} (old : page ∈ List.range' (top / 4096) i) :
      translate k'.mem root page = translate k.mem root page := by
    rw [same]
    refine Option.ext fun y => (leaves.pages root page y member (call.low page old)).trans (or_iff_left fun new => ?_)
    have upper := (List.mem_range'_1.mp old).2
    have equal : page = top / 4096 + i := new.2.1
    omega
  have pages : 0 < divCeil (buf'.cap * 8) pageSize := by
    rw [divCeil_page]
    omega
  have kept : buf'.lost k0.alloc 8 = [] ↔ buf'.ptr / 4096 ≠ k0.alloc.reserved + k0.alloc.selfUsedPage :=
    FrameAlloc.lostRun_nil_iff (call'.lower pages) pages
  have old : (if i < buf.cap then [] else buf.lost k0.alloc 8) = [] ∧ buf'.lost k0.alloc 8 = [] ↔
      buf.lost k0.alloc 8 = [] ∧ buf'.lost k0.alloc 8 = [] := by
    rcases VecGrowth.push_cases (by decide) pushed with ⟨room, rfl, _⟩ | ⟨_, _, _, full, _⟩
    · rw [if_pos room, and_self, and_iff_right rfl]
    · rw [if_neg full]
  unfold Clean
  rw [List.append_eq_nil_iff, ← kept, List.range'_1_concat, List.forall_mem_append, List.forall_mem_singleton, here,
    forall₂_congr fun page inside => by rw [before inside]]
  constructor
  · rintro ⟨⟨pushed, none⟩, buffer, data, last⟩
    exact ⟨⟨none, (old.mp ⟨pushed, buffer⟩).1, data⟩, fun equal => last (congrArg some equal), buffer⟩
  · rintro ⟨⟨none, first, data⟩, last, buffer⟩
    exact ⟨⟨(old.mpr ⟨first, buffer⟩).1, none⟩, buffer, data, fun equal => last (Option.some.inj equal)⟩

/-- A refused page was mapped before, or the frames do not reach for it and its
tables. -/
theorem Counted.refused {top phys : Nat} {m : Mem} {a a' : FrameAlloc}
    (counted : Counted k0 growth root (top / 4096) i buf complete k)
    (call : InCall c s k0 R root ∅ (buf.frames 8 ++ lost) rest { page | page ∈ List.range' (top / 4096) i } k)
    (member : root ∈ R) (small : SmallPages k.mem R) (wide : k0.alloc.maxPage ≤ 2 ^ 40)
    (run : k.alloc.allocateContiguous 1 = some (phys, a)) (bound : top / 4096 + i < 2 ^ 35)
    (mapped : mapper.mapTo k.mem a root (top / 4096 + i) phys heapFlags = (false, m, a')) (all : complete) (pages : Nat) :
    ¬k0.RunsOut growth root (top / 4096) pages := by
  have taken : InCall c s k0 R root ∅ (phys :: (buf.frames 8 ++ lost)) rest _ { k with alloc := a } := call.take run
  have size : a.maxPage = k0.alloc.maxPage := congrArg Prod.fst taken.shape
  have cost := FrameAlloc.freeFrames_allocate run
  obtain ⟨_, links, frames, tables, full⟩ := mapTo_counts_err taken.trail.stage.owns member bound (by decide)
    (call.inRam wide run) small (by show a.maxPage ≤ 2 ^ 40; omega) mapped
  change a.freeFrames = _ at frames
  have more := counted.next_tables bound
  have before := counted.frames all
  rintro ⟨j, _, exhausted, free⟩
  by_cases later : i < j
  · obtain ⟨none, missing⟩ := full ((call.untouched member bound).trans (free i later))
    have grows := heapCost_mono k0.mem growth root (top / 4096) (show i + 1 ≤ j from later)
    have next : heapCost k0.mem growth root (top / 4096) i + 1 + missingTables k.mem root (top / 4096 + i) ≤
        heapCost k0.mem growth root (top / 4096) (i + 1) := by
      have room := growth.room_mono (Nat.le_add_right i 1)
      rw [heapCost, heapCost, more, divCeil_page, divCeil_page]
      omega
    change missingTables k.mem root _ = _ at tables
    omega
  · have grows := heapCost_mono k0.mem growth root (top / 4096) (Nat.le_of_not_lt later)
    omega

/-- After a page the loop goes on as before it, if nothing of it is at the
boundary. -/
theorem Counted.withdraws_page {top phys left : Nat} {m : Mem} {a a1 a2 : FrameAlloc} {buf' : Buffer}
    (counted : Counted k0 growth root (top / 4096) i buf complete k)
    (call : InCall c s k0 R root ∅ (buf.frames 8 ++ lost) rest { page | page ∈ List.range' (top / 4096) i } k)
    (member : root ∈ R) (wide : k0.alloc.maxPage ≤ 2 ^ 40) (run : k.alloc.allocateContiguous 1 = some (phys, a))
    (bound : top / 4096 + i < 2 ^ 35) (mapped : mapper.mapTo k.mem a root (top / 4096 + i) phys heapFlags = (true, m, a1))
    (pushed : growth.push 8 i buf a1 = some (buf', a2)) :
    Withdraws growth k0.mem root (top / 4096) (left + 1) i buf k.alloc ↔
      (phys ≠ k0.alloc.reserved + k0.alloc.selfUsedPage ∧ buf'.ptr / 4096 ≠ k0.alloc.reserved + k0.alloc.selfUsedPage) ∧
        Withdraws growth k0.mem root (top / 4096) left (i + 1) buf' a2 := by
  obtain ⟨free, tables⟩ := mapTo_takes (call.take run).trail.stage.owns member bound (by decide) (call.inRam wide run) mapped
  have missing : tablesFor k0.mem root (top / 4096) (i + 1) - tablesFor k0.mem root (top / 4096) i =
      missingTables k.mem root (top / 4096 + i) := by
    rw [counted.next_tables bound, Nat.add_sub_cancel_left]
  constructor
  · intro withdraws
    cases withdraws with
    | stop full =>
      rw [full] at run
      cases run
    | page run' phys' _ tables' pushed' buffer later =>
      rw [call.boundary] at phys' buffer
      cases Option.some.inj (run'.symm.trans run)
      rw [missing] at tables'
      cases Option.some.inj (tables'.symm.trans tables)
      cases Option.some.inj (pushed'.symm.trans pushed)
      exact ⟨⟨phys', buffer⟩, later⟩
  · rintro ⟨⟨phys', buffer⟩, later⟩
    rw [← call.boundary] at phys' buffer
    rw [← missing] at tables
    exact .page run phys' ((call.untouched member bound).symm.trans free) tables pushed buffer later

/-- A refused page is no end of a withdrawal. -/
theorem Counted.withdraws_refused {top phys left : Nat} {m : Mem} {a a' : FrameAlloc}
    (counted : Counted k0 growth root (top / 4096) i buf complete k)
    (call : InCall c s k0 R root ∅ (buf.frames 8 ++ lost) rest { page | page ∈ List.range' (top / 4096) i } k)
    (member : root ∈ R) (small : SmallPages k.mem R) (wide : k0.alloc.maxPage ≤ 2 ^ 40)
    (run : k.alloc.allocateContiguous 1 = some (phys, a)) (bound : top / 4096 + i < 2 ^ 35)
    (mapped : mapper.mapTo k.mem a root (top / 4096 + i) phys heapFlags = (false, m, a')) :
    ¬Withdraws growth k0.mem root (top / 4096) (left + 1) i buf k.alloc := by
  have taken : InCall c s k0 R root ∅ (phys :: (buf.frames 8 ++ lost)) rest _ { k with alloc := a } := call.take run
  have size : a.maxPage = k0.alloc.maxPage := congrArg Prod.fst taken.shape
  obtain ⟨_, links, frames, tables, full⟩ := mapTo_counts_err taken.trail.stage.owns member bound (by decide)
    (call.inRam wide run) small (by show a.maxPage ≤ 2 ^ 40; omega) mapped
  change a.freeFrames = _ at frames
  change missingTables k.mem root _ = _ at tables
  have missing := counted.next_tables bound
  intro withdraws
  cases withdraws with
  | stop none =>
    rw [none] at run
    cases run
  | page run' _ free served _ _ _ =>
    cases Option.some.inj (run'.symm.trans run)
    obtain ⟨none, more⟩ := full ((call.untouched member bound).trans free)
    have cost := FrameAlloc.freeFrames_take served
    omega

end

section
variable {c : Snapshot} {s : Sched} {k : Kernel} {R : Set Nat} {root pid : Nat} {rest : List Nat}
  (mapper : ExactMapper)

/-- What the mapping loop has lost when it fails: nothing, just when it withdraws.
It does so only when the frames run out before a page, and then it does if the
frame at the boundary is in use. -/
structure Losses (growth : VecGrowth) (root base n : Nat) (k : Kernel) (lost : List Nat) : Prop where
  withdraws : lost = [] ↔ Withdraws growth k.mem root base n 0 {} k.alloc
  only : lost = [] → k.RunsOut growth root base n
  enough : FrameAlloc.Used k.alloc.bitmap (k.alloc.reserved + k.alloc.selfUsedPage) → k.RunsOut growth root base n → lost = []

/-- Where the loop stands before page `i`, and what it has lost by then. -/
structure Losing (c : Snapshot) (s : Sched) (R : Set Nat) (rest : List Nat) (growth : VecGrowth) (root base n : Nat)
    (k0 : Kernel) (i : Nat) (buf : Buffer) (lost : List Nat) (k : Kernel) : Prop where
  call : InCall c s k0 R root ∅ (buf.frames 8 ++ lost) rest { page | page ∈ List.range' base i } k
  few : lost = [] ∨ ¬FrameAlloc.Used k0.alloc.bitmap (k0.alloc.reserved + k0.alloc.selfUsedPage)
  counted : Counted k0 growth root base i buf (lost = []) k
  withdraws : Withdraws growth k0.mem root base n 0 {} k0.alloc ↔
    Clean k0 root (List.range' base i) buf lost k ∧ Withdraws growth k0.mem root base (n - i) i buf k.alloc

section
variable {growth : VecGrowth} {top base n i : Nat} {k0 : Kernel} {buf : Buffer} {lost : List Nat}

theorem Losing.start (trail : Trail True c s R rest k) : Losing c s R rest growth root base n k 0 {} [] k where
  call := by
    have none : { page | page ∈ List.range' base 0 } = ∅ := by simp
    rw [none]
    exact InCall.start trail
  few := Or.inl rfl
  counted := { Counted.start k growth root base with frames := fun _ => (Counted.start k growth root base).frames trivial }
  withdraws := (and_iff_right (Clean.start k k root)).symm

/-- There is no frame for the next page. -/
theorem Losing.full (losing : Losing c s R rest growth root base n k0 i buf lost k) (member : root ∈ R) (inside : i < n)
    (full : k.alloc.allocateContiguous 1 = none) :
    wp (giveUp mapper.toPageMapper root (List.range' base i) buf) (fun _ _ => True)
      (fun _ k' => ∃ lost', InCall c s k0 R root ∅ lost' rest ∅ k' ∧ Losses growth root base n k0 lost') k := by
  have call := losing.call
  refine (giveUp_call mapper _ call List.nodup_range' member).mono (fun _ _ => id) ?_
  rintro _ k2 ⟨lost', call', none⟩
  have withdraws := losing.withdraws
  rw [show n - i = n - i - 1 + 1 by omega, and_iff_left (Withdraws.stop full)] at withdraws
  refine ⟨lost', call', none.trans withdraws.symm, fun empty => ⟨i, inside, ?_, fun j before => ?_⟩,
    fun inUse _ => none.mpr ⟨?_, ?_, fun page there => ?_⟩⟩
  · have frames := losing.counted.frames (none.mp empty).1
    have exhausted := (call.trail.stage.owns.guarded.refused_iff).mp full
    omega
  · exact call.free _ (List.mem_range'_1.mpr ⟨by omega, by omega⟩)
  · exact losing.few.resolve_right (not_not.mpr inUse)
  · exact call.lost.resolve_right (not_not.mpr inUse)
  · obtain ⟨f, mapped, _, unused⟩ := call.mapped page there
    rw [mapped]
    exact fun same => unused (Option.some.inj same ▸ inUse)

/-- The next page cannot be mapped, and its frame is lost. -/
theorem Losing.refused {phys : Nat} {m : Mem} {a a' : FrameAlloc}
    (losing : Losing c s R rest growth root (top / 4096) n k0 i buf lost k) (member : root ∈ R) (small : SmallPages k.mem R)
    (wide : k0.alloc.maxPage ≤ 2 ^ 40) (inside : i < n) (run : k.alloc.allocateContiguous 1 = some (phys, a))
    (bound : top / 4096 + i < 2 ^ 35)
    (mapped : mapper.mapTo k.mem a root (top / 4096 + i) phys heapFlags = (false, m, a')) :
    wp (giveUp mapper.toPageMapper root (List.range' (top / 4096) i) buf) (fun _ _ => True)
      (fun _ k' => ∃ lost', InCall c s k0 R root ∅ lost' rest ∅ k' ∧ Losses growth root (top / 4096) n k0 lost')
      { k with mem := m, alloc := a' } := by
  have call := losing.call
  have left := refusePage_call mapper call member run bound mapped
  refine (giveUp_call mapper _ left List.nodup_range' member).mono (fun _ _ => id) ?_
  rintro _ k2 ⟨lost', call', none⟩
  have some : lost' ≠ [] := fun empty => absurd (none.mp empty).1 (List.cons_ne_nil _ _)
  have withdraws := losing.withdraws
  rw [show n - i = n - i - 1 + 1 by omega] at withdraws
  refine ⟨lost', call', iff_of_false some fun all => ?_, fun empty => absurd empty some, fun inUse out => ?_⟩
  · exact losing.counted.withdraws_refused call member small wide run bound mapped (withdraws.mp all).2
  · have all := losing.few.resolve_right (not_not.mpr inUse)
    exact absurd out (losing.counted.refused call member small wide run bound mapped all n)

/-- One page more. -/
theorem Losing.page {phys : Nat} {m : Mem} {a a' : FrameAlloc}
    (losing : Losing c s R rest growth root (top / 4096) n k0 i buf lost k) (member : root ∈ R) (sized : k0.alloc.Sized)
    (wide : k0.alloc.maxPage ≤ 2 ^ 40) (inside : i < n) (run : k.alloc.allocateContiguous 1 = some (phys, a))
    (bound : top / 4096 + i < 2 ^ 35)
    (mapped : mapper.mapTo k.mem a root (top / 4096 + i) phys heapFlags = (true, m, a')) :
    wp (reserve growth 8 i buf) (fun buf' k' => ∃ lost', Losing c s R rest growth root (top / 4096) n k0 (i + 1) buf' lost' k')
      (fun (_ : Int) _ => False) { k with mem := m, alloc := a' } := by
  have ⟨call, few, counted, withdraws⟩ := losing
  have serving := (mapPage_call mapper call member run bound mapped).trail.stage.serving
  have pushes : wp (reserve growth 8 i buf) (fun buf' k' => growth.push 8 i buf a' = some (buf', k'.alloc) ∧ k'.mem = m)
      (fun (_ : Int) _ => False) { k with mem := m, alloc := a' } :=
    wp_reserve_push growth (by decide) serving fun buf' a'' pushed => ⟨pushed, rfl⟩
  refine ((counted.page call member sized wide run bound mapped).and pushes).mono ?_ fun _ _ => And.left
  rintro buf' k2 ⟨⟨call', counted'⟩, pushed, same⟩
  refine ⟨_, call', reserve_lost i call few,
    { counted' with frames := fun empty => counted'.frames (List.append_eq_nil_iff.mp empty) }, ?_⟩
  have filled : 0 < buf'.cap := counted'.cap ▸ growth.room_pos i
  rw [withdraws, show n - i = n - (i + 1) + 1 by omega,
    counted.withdraws_page call member wide run bound mapped pushed,
    clean_page call call' filled member run bound mapped same pushed]
  exact and_assoc.symm

end

theorem growPages_losses (growth : VecGrowth) {top : Nat} (aligned : top % 4096 = 0) (n : Nat) (trail : Trail True c s R rest k)
    (member : root ∈ R) (owned : c.Owned) (small : SmallPages c.mem c.roots) (sized : k.alloc.Sized)
    (wide : k.alloc.maxPage ≤ 2 ^ 40) :
    wp (growPages mapper.toPageMapper growth root top n 0 [] {}) (fun _ _ => True)
      (fun _ k' => ∃ lost, InCall c s k R root ∅ lost rest ∅ k' ∧ Losses growth root (top / 4096) n k lost) k := by
  refine growPages_rule mapper growth aligned
    (I := fun i buf k' => ∃ lost, Losing c s R rest growth root (top / 4096) n k i buf lost k')
    (fun _ _ _ => trivial) ?_ ?_ ?_ n 0 (Nat.zero_add n) ⟨[], .start trail⟩
  · rintro i buf k1 inside ⟨lost, losing⟩ full
    exact losing.full mapper member inside full
  · rintro i buf k1 phys a m a' inside ⟨lost, losing⟩ run bound mapped
    have now := losing.call.trail.edits.lowEntries entryRule_single owned small
    exact losing.refused mapper member now wide inside run bound mapped
  · rintro i buf k1 phys a m a' inside ⟨lost, losing⟩ run bound mapped
    exact losing.page mapper member sized wide inside run bound mapped

theorem allocateHeap_losses {size : Nat} (growth : VecGrowth) (buf : Buffer) (positive : size ≠ 0)
    (found : findProcess k.sched (root * 4096) = some pid) (aligned : heapTop (k.sched.normalProcess pid).heapRange % 4096 = 0)
    (trail : Trail True c k.sched R rest k) (member : root ∈ R) (owned : c.Owned)
    (small : SmallPages c.mem c.roots) (sized : k.alloc.Sized) (wide : k.alloc.maxPage ≤ 2 ^ 40) :
    wp (allocateHeap mapper.toPageMapper growth (root * 4096) size buf) (fun _ _ => True)
      (fun _ k' => ∃ lost base, base = heapTop (k.sched.normalProcess pid).heapRange / 4096 ∧
        InCall c k.sched k R root ∅ lost rest ∅ k' ∧ Losses growth root base (divCeil size pageSize) k lost) k := by
  unfold allocateHeap
  rw [if_neg positive]
  refine wp_bind (wp_read ?_)
  rw [found]
  dsimp only
  rw [Nat.mul_div_cancel root (by decide)]
  refine wp_bind ((growPages_losses mapper growth aligned _ trail member owned small sized wide).mono ?_ ?_)
  · intro pages k1 _
    refine wp_bind ((reserve_mem growth 16 _ buf).mono (fun _ _ _ => ?_) fun _ _ => False.elim)
    exact wp_bind (wp_write (wp_bind (wp_dropBuffer (wp_pure trivial))))
  · rintro _ k1 ⟨lost, call, out⟩
    exact ⟨lost, _, rfl, call, out⟩

end

end Kernel

namespace HeapKernel

/-- A refused `allocate` has left nothing behind: the heap ranges and the pages
of the process are as before, and every frame that was taken is a page table
now. -/
structure RolledBack (h h' : HeapKernel) (root : Nat) : Prop where
  sched : h'.kernel.sched = h.kernel.sched
  pages : ∀ page, page < 2 ^ 35 → translate h'.kernel.mem root page = translate h.kernel.mem root page
  frames : ∀ q, FrameAlloc.Used h'.kernel.alloc.bitmap q →
    FrameAlloc.Used h.kernel.alloc.bitmap q ∨ TableOf h'.kernel.mem root q

/-- Nothing is asked for, or the free frames are used up before some page. -/
def RunsOut (h : HeapKernel) (growth : VecGrowth) (root : Nat) (size : UInt64) : Prop :=
  size.toNat = 0 ∨ ∀ pid, Kernel.findProcess h.kernel.sched (root * 4096) = some pid →
    h.kernel.RunsOut growth root (Kernel.heapTop (h.live pid) / 4096) (divCeil size.toNat pageSize)

/-- Nothing is asked for, or the requests end right before some page with no loss. -/
def Withdraws (h : HeapKernel) (growth : VecGrowth) (root : Nat) (size : UInt64) : Prop :=
  size.toNat = 0 ∨ ∀ pid, Kernel.findProcess h.kernel.sched (root * 4096) = some pid →
    ProkaKernel.Withdraws growth h.kernel.mem root (Kernel.heapTop (h.live pid) / 4096) (divCeil size.toNat pageSize) 0 {}
      h.kernel.alloc

section
variable {h h' : HeapKernel} {R : Set Nat} {root pid : Nat} {growth : VecGrowth} {mapper : ExactMapper} {size : UInt64} {e : Int}

theorem RolledBack.refl (h : HeapKernel) (root : Nat) : RolledBack h h root := ⟨rfl, fun _ _ => rfl, fun _ => Or.inl⟩

/-- Nothing is left behind exactly if no frame was lost. -/
theorem Sound.rolledBack_iff {lost rest : List Nat} (sound : h.Sound R) (member : root ∈ R)
    (call : InCall (h.kernel.snapshot R h.held) h.kernel.sched h.kernel R root ∅ lost rest ∅ h'.kernel) :
    RolledBack h h' root ↔ lost = [] := by
  constructor
  · intro back
    refine List.eq_nil_iff_forall_not_mem.mpr fun q there => ?_
    obtain ⟨taken, unplaced⟩ := call.trail.stage.owns.spaces.pending q (List.mem_append_left _ there)
    rcases back.frames q taken.1 with before | ⟨p, low, _, reached⟩
    · exact call.fresh there before
    · exact unplaced ⟨root, p, member, low, reached⟩
  · rintro rfl
    refine ⟨call.trail.stage.sched, fun page bound => call.kept root member page bound fun both => both.2, fun q used => ?_⟩
    have owns := sound.stage.owns.restrict (fun _ => id) (Set.empty_subset _)
    exact (call.tables owns member used).imp_right fun either => either.resolve_left List.not_mem_nil

theorem Sound.rolls_back (sound : h.Sound R) (member : root ∈ R) (wide : h.kernel.alloc.maxPage ≤ 2 ^ 40)
    (run : h.call mapper.toPageMapper growth (root * 4096) (.allocate size) = some (.error e, h')) :
    (RolledBack h h' root ↔ h.Withdraws growth root size) ∧ (RolledBack h h' root → h.RunsOut growth root size) ∧
      (FrameAlloc.Used h.kernel.alloc.bitmap (h.kernel.alloc.reserved + h.kernel.alloc.selfUsedPage) →
        h.RunsOut growth root size → RolledBack h h' root) := by
  by_cases early : size.toNat = 0 ∨ Kernel.findProcess h.kernel.sched (root * 4096) = none
  · obtain ⟨e, out⟩ := allocate_early mapper.toPageMapper growth early
    cases Option.some.inj (out.symm.trans run)
    have any {P : Nat → Prop} :
        size.toNat = 0 ∨ ∀ pid, Kernel.findProcess h.kernel.sched (root * 4096) = some pid → P pid := by
      refine early.imp_right fun missing pid found => ?_
      rw [missing] at found
      cases found
    exact ⟨iff_of_true (RolledBack.refl h root) any, fun _ => any, fun _ _ => RolledBack.refl h root⟩
  · obtain ⟨positive, present⟩ := not_or.mp early
    obtain ⟨pid, found⟩ := Option.ne_none_iff_exists'.mp present
    obtain ⟨_, ran, _⟩ := sound.refused member found run
    have only {P : Nat → Prop} :
        (size.toNat = 0 ∨ ∀ pid, Kernel.findProcess h.kernel.sched (root * 4096) = some pid → P pid) ↔ P pid := by
      refine ⟨fun either => either.resolve_left positive pid found, fun here => Or.inr fun pid' found' => ?_⟩
      cases Option.some.inj (found.symm.trans found')
      exact here
    have post := Kernel.allocateHeap_losses mapper growth (h.buffers pid) positive found
      (heapTop_spec (sound.shaped pid)).1 sound.trail member sound.owned sound.small sound.sized wide
    obtain ⟨lost, base, rfl, call, losses⟩ := post.error ran
    rw [sound.rolledBack_iff member call, Withdraws, RunsOut, only, only]
    exact ⟨losses.withdraws, losses.only, losses.enough⟩

end

end HeapKernel

end ProkaKernel
