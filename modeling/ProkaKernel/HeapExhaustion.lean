import ProkaKernel.HeapRanges
import ProkaKernel.LowEntries
import ProkaKernel.ProcessFrames

namespace ProkaKernel

/-- The lower halves have no huge pages. -/
def SmallPages (m : Mem) (R : Set Nat) : Prop := LowEntries (fun _ e => e = 0 ∨ pteFrame e ≠ none) m R

section MapTo
variable {mapper : ExactMapper} {m m' : Mem} {a a' : FrameAlloc} {R pend : Set Nat} {root page frame flags : Nat}

/-- A page that gets mapped was free, and one frame is taken for every table
that was missing. -/
theorem mapTo_takes (owns : Owns m a R pend) (member : root ∈ R) (bound : page < 2 ^ 35) (ok : PageFlags.Ok flags)
    (inRam : frame < 2 ^ 40) (run : mapper.mapTo m a root page frame flags = (true, m', a')) :
    translate m root page = none ∧ FrameAlloc.takeFrames (missingTables m root page) a = some a' := by
  obtain ⟨middle, growth, outcome⟩ := mapper.mapTo_exact (owns.single member) bound ok inRam run
  obtain ⟨links, frames, tables⟩ := growth.takes owns member bound
  have grown := (growth.growth bound).grown owns member
  rcases outcome with ⟨_, p, i, t, last, free, _⟩ | ⟨refused, _⟩
  · rw [last.missingTables, Nat.zero_add] at tables
    rw [translate, ← grown.leaves root _ member (pagePath_low bound) rfl, last.path, tableWalk,
      Forest.walk_through last.reached, free, pteFrame_zero, Option.bind_none, tables]
    exact ⟨rfl, frames⟩
  · cases refused

theorem mapTo_counts_ok (owns : Owns m a R pend) (member : root ∈ R) (bound : page < 2 ^ 35) (ok : PageFlags.Ok flags)
    (inRam : frame < 2 ^ 40) (run : mapper.mapTo m a root page frame flags = (true, m', a')) :
    translate m root page = none ∧ a.freeFrames = a'.freeFrames + missingTables m root page := by
  obtain ⟨free, taken⟩ := mapTo_takes owns member bound ok inRam run
  exact ⟨free, FrameAlloc.freeFrames_take taken⟩

/-- A free page is refused only when the frames run out before its tables are
complete. -/
theorem mapTo_counts_err (owns : Owns m a R pend) (member : root ∈ R) (bound : page < 2 ^ 35) (ok : PageFlags.Ok flags)
    (inRam : frame < 2 ^ 40) (small : SmallPages m R) (wide : a.maxPage ≤ 2 ^ 40)
    (run : mapper.mapTo m a root page frame flags = (false, m', a')) :
    translate m' root page = translate m root page ∧ ∃ links, a.freeFrames = a'.freeFrames + links ∧
      missingTables m root page = missingTables m' root page + links ∧
      (translate m root page = none → a'.freeFrames = 0 ∧ 0 < missingTables m' root page) := by
  obtain ⟨middle, growth, outcome⟩ := mapper.mapTo_exact (owns.single member) bound ok inRam run
  obtain ⟨links, frames, tables⟩ := growth.counts owns member bound
  have grown := (growth.growth bound).grown owns member
  have single := (growth.growth bound).lowEntries entryRule_single owns member small
  rcases outcome with ⟨done, _⟩ | ⟨_, rfl, refusal⟩
  · cases done
  · have same : translate m' root page = translate m root page := grown.leaves root _ member (pagePath_low bound) rfl
    refine ⟨same, links, frames, tables, fun free => ?_⟩
    rw [← same] at free
    cases refusal with
    | pageAlreadyMapped path reached used =>
      obtain ⟨f, entry⟩ := Option.ne_none_iff_exists'.mp
        ((single root member _ _ _ (path_low bound path) reached).resolve_left used)
      rw [translate, path, tableWalk, Forest.walk_through reached, entry] at free
      cases free
    | parentEntryHugePage path _ reached used huge =>
      exact absurd huge ((single root member _ _ _ (path_low bound path) reached).resolve_left used)
    | frameAllocationFailed path above reached unlinked failed =>
      refine ⟨(grown.owns.guarded.refused_iff).mp ?_, missingTables_pos path above reached unlinked⟩
      cases next : a'.allocateContiguous 1 with
      | none => rfl
      | some out =>
        obtain ⟨_, inside, _⟩ := FrameAlloc.allocateContiguous_some next
        have size : a'.maxPage = a.maxPage := congrArg Prod.fst (growth.growth bound).shape
        have wrong := failed out.1 out.2 next
        omega

end MapTo

/-- A frame that is taken for a page. -/
theorem Trail.takeFrame {c : Snapshot} {s : Sched} {R : Set Nat} {pend : List Nat} {k : Kernel} {f : Nat} {a : FrameAlloc}
    (trail : Trail True c s R pend k) (run : k.alloc.allocateContiguous 1 = some (f, a)) :
    Trail True c s R (f :: pend) { k with alloc := a } ∧ f < k.alloc.maxPage ∧ a.maxPage = k.alloc.maxPage ∧
      k.alloc.freeFrames = a.freeFrames + 1 := by
  have inside := (FrameAlloc.allocateContiguous_some run).2.1
  refine ⟨trail.allocate run, by omega, congrArg Prod.fst (FrameAlloc.shape_allocate run), FrameAlloc.freeFrames_allocate run⟩

namespace Kernel
open Prog

section Page
variable {ε : Type} {c : Snapshot} {s : Sched} {R : Set Nat} {pend : List Nat} {k : Kernel} {root : Nat}
  (growth : VecGrowth)

theorem wp_releaseEmpty {E : ε → Kernel → Prop} {Q : Unit → Kernel → Prop} (done : Q () k) : wp (dropBuffer 8 {}) Q E k := by
  refine wp_dropBuffer ?_
  rw [show divCeil (({} : Buffer).cap * 8) pageSize = 0 from rfl, FrameAlloc.deallocate_zero]
  exact done

/-- The first push takes a buffer from the free frames. -/
theorem reserve_first {E : ε → Kernel → Prop} {Q : Buffer → Kernel → Prop}
    (done : ∀ b n a, 0 < n → k.alloc.allocateContiguous n = some (b, a) → ∀ buf : Buffer, buf.ptr = b * 4096 →
      divCeil (buf.cap * 8) pageSize = n → Q buf { k with alloc := a }) : wp (reserve growth 8 0 {}) Q E k := by
  have positive : 0 < divCeil (growth.next 0 * 8) pageSize := by
    have grows := growth.grows 0
    rw [divCeil_page]
    omega
  exact wp_bind (wp_newBuffer fun b a run => wp_bind (wp_releaseEmpty (wp_pure (done b _ a positive run _ rfl rfl))))

/-- A push does not leave more frames free. -/
theorem reserve_counts {E : ε → Kernel → Prop} (size len : Nat) (buf : Buffer) :
    wp (reserve growth size len buf)
      (fun _ k' => k'.alloc.shape = k.alloc.shape ∧ k'.alloc.freeFrames ≤ k.alloc.freeFrames ∧ k'.mem = k.mem) E k := by
  unfold reserve
  split
  · exact wp_pure ⟨rfl, Nat.le_refl _, rfl⟩
  · refine wp_bind (wp_newBuffer fun f a run => wp_bind (wp_dropBuffer (wp_pure ⟨?_, ?_, rfl⟩)))
    · exact (FrameAlloc.shape_deallocate ..).trans (FrameAlloc.shape_allocate run)
    · have taken := FrameAlloc.freeFrames_allocate run
      have given := a.freeFrames_deallocate_le (buf.ptr / 4096) (divCeil (buf.cap * size) pageSize)
      have larger : divCeil (buf.cap * size) pageSize ≤ divCeil (growth.next buf.cap * size) pageSize := by
        have grows := Nat.mul_le_mul_right size (Nat.le_of_lt (growth.grows buf.cap))
        rw [divCeil_page, divCeil_page]
        omega
      show (a.deallocateContiguous (buf.ptr / 4096) (divCeil (buf.cap * size) pageSize)).freeFrames ≤ k.alloc.freeFrames
      omega

/-- What mapping one heap page costs: its frame, the tables on its way, and a
buffer for the list of pages that lives until the end of the call. -/
structure FirstPage (root page : Nat) (k k' : Kernel) (buf : Buffer) (f b : Nat) : Prop where
  mapped : translate k'.mem root page = some f
  unused : ¬FrameAlloc.Used k.alloc.bitmap f
  buffer : buf.ptr = b * 4096
  positive : 0 < divCeil (buf.cap * 8) pageSize
  stock : k.alloc.InStock b
  apart : b ≠ f
  shape : k'.alloc.shape = k.alloc.shape
  frames : k'.alloc.freeFrames + missingTables k.mem root page + divCeil (buf.cap * 8) pageSize < k.alloc.freeFrames

/-- What a refused page says about the free frames. -/
structure NoPage (root page : Nat) (k k' : Kernel) : Prop where
  frames : k.alloc.freeFrames = 0 ∨ k'.alloc.freeFrames < k.alloc.freeFrames
  refused : translate k.mem root page = none → k.alloc.freeFrames ≤ missingTables k.mem root page

variable (mapper : ExactMapper)

theorem growPages_one (top : Nat) (trail : Trail True c s R pend k) (member : root ∈ R) (small : SmallPages k.mem R)
    (wide : k.alloc.maxPage ≤ 2 ^ 40) :
    wp (growPages mapper.toPageMapper growth root top 1 0 [] {})
      (fun buf k' => ∃ f b, FirstPage root (top / 4096) k k' buf f b) (fun _ k' => NoPage root (top / 4096) k k') k := by
  have giveUp_empty {k1 : Kernel} {E : Int → Kernel → Prop} (done : E (-18) k1) :
      wp (giveUp mapper.toPageMapper root [] {}) (fun buf k' => ∃ f b, FirstPage root (top / 4096) k k' buf f b) E k1 :=
    wp_bind (wp_pure (wp_bind (wp_releaseEmpty (wp_fail done))))
  refine wp_bind (wp_allocateContiguous (fun full => ?_) fun phys a run => ?_)
  · have none := (trail.stage.owns.guarded.refused_iff).mp full
    exact giveUp_empty ⟨Or.inl none, fun _ => by omega⟩
  · obtain ⟨taken, inside, size, cost⟩ := trail.takeFrame run
    have hands := trail.stage.owns.guarded.hands run
    have unused := (FrameAlloc.allocateContiguous_some run).2.2.1
    have leaf : LeafFlags heapFlags := Or.inr (Or.inr rfl)
    refine wp_bind (wp_pageAt fun bound => ?_)
    rw [Nat.zero_mul, Nat.add_zero] at bound ⊢
    refine wp_bind (wp_mapTo mapper.toPageMapper fun done m a' mapped => ?_)
    have owns : Owns k.mem a R _ := taken.stage.owns
    cases done with
    | false =>
      obtain ⟨_, links, frames, tables, full⟩ := mapTo_counts_err owns member bound leaf.ok (by omega) small
        (by omega) mapped
      refine giveUp_empty ⟨Or.inr ?_, fun free => ?_⟩
      · show a'.freeFrames < k.alloc.freeFrames
        omega
      · obtain ⟨none, missing⟩ := full free
        omega
    | true =>
      have frames : a.freeFrames = a'.freeFrames + missingTables k.mem root (top / 4096) :=
        (mapTo_counts_ok owns member bound leaf.ok (by omega) mapped).2
      obtain ⟨there, trail2⟩ := taken.mapTo member bound leaf mapped
      have shape : a'.shape = k.alloc.shape :=
        trail2.edits.shape.trans trail.edits.shape.symm
      refine wp_bind (reserve_first growth fun b n a2 positive run2 buf ptr pages => wp_pure ⟨phys, b, ?_⟩)
      have used : FrameAlloc.Used a'.bitmap phys :=
        there.used phys ((hands.used phys).mpr (Or.inr ⟨Nat.le_refl _, Nat.lt_succ_self _⟩))
      have fresh := (trail2.stage.owns.guarded.hands run2).fresh b (Nat.le_refl b) (by omega)
      have taken2 : a'.freeFrames = a2.freeFrames + n := FrameAlloc.freeFrames_allocate run2
      refine ⟨(there.pages root _ phys member bound).mpr (Or.inr ⟨rfl, rfl, rfl⟩),
        unused phys (Nat.le_refl _) (Nat.lt_succ_self _), ptr, pages ▸ positive,
        (trail2.stage.owns.guarded.inStock run2 positive).of_shape shape.symm, ?_, ?_, ?_⟩
      · rintro rfl
        exact fresh used
      · exact (FrameAlloc.shape_allocate run2).trans shape
      · show a2.freeFrames + missingTables k.mem root (top / 4096) + divCeil (buf.cap * 8) pageSize < k.alloc.freeFrames
        omega

/-- What a successful call for one page does: the page gets a frame that was
free, and if this is the one frame that is never given back, another is free
at the end. -/
structure OnePage (root page : Nat) (k k' : Kernel) (f : Nat) : Prop where
  mapped : translate k'.mem root page = some f
  unused : ¬FrameAlloc.Used k.alloc.bitmap f
  enough : missingTables k.mem root page + 2 ≤ k.alloc.freeFrames
  frames : k'.alloc.freeFrames < k.alloc.freeFrames
  another : f = k.alloc.reserved + k.alloc.selfUsedPage → 0 < k'.alloc.freeFrames

theorem allocateHeap_one {pid : Nat} (buf : Buffer) (found : findProcess k.sched (root * 4096) = some pid)
    (trail : Trail True c s R pend k) (member : root ∈ R) (small : SmallPages k.mem R)
    (wide : k.alloc.maxPage ≤ 2 ^ 40) (sized : k.alloc.Sized) :
    wp (allocateHeap mapper.toPageMapper growth (root * 4096) 1 buf)
      (fun _ k' => ∃ f, OnePage root (heapTop (k.sched.normalProcess pid).heapRange / 4096) k k' f)
      (fun _ k' => NoPage root (heapTop (k.sched.normalProcess pid).heapRange / 4096) k k') k := by
  refine wp_bind (wp_read ?_)
  rw [found]
  dsimp only
  rw [Nat.mul_div_cancel root (by decide)]
  refine wp_bind ((growPages_one growth mapper _ trail member small wide).mono ?_ fun _ _ => id)
  rintro pages k1 ⟨f, b, first⟩
  refine wp_bind ((reserve_counts growth 16 _ buf).mono ?_ fun _ _ => False.elim)
  rintro ranges k2 ⟨shape, fewer, same⟩
  refine wp_bind (wp_write (wp_bind (wp_dropBuffer (wp_pure ⟨f, ?_⟩))))
  have frames := first.frames
  have positive := first.positive
  have shape2 := shape.trans first.shape
  have start : pages.ptr / 4096 = b := by
    rw [first.buffer]
    exact Nat.mul_div_cancel b (by decide)
  refine ⟨?_, first.unused, by omega, ?_, fun boundary => ?_⟩
  · show translate k2.mem root _ = some f
    rw [same]
    exact first.mapped
  · have given := k2.alloc.freeFrames_deallocate_le (pages.ptr / 4096) (divCeil (pages.cap * 8) pageSize)
    show (k2.alloc.deallocateContiguous (pages.ptr / 4096) (divCeil (pages.cap * 8) pageSize)).freeFrames < _
    omega
  · have lower := first.stock.1
    have apart := first.apart
    rw [start]
    refine FrameAlloc.freeFrames_pos_deallocate (sized.of_shape shape2) ?_ (first.stock.of_shape shape2).2 positive
    rw [FrameAlloc.boundary_of_shape shape2]
    omega

/-- A heap range of one page. -/
def pageRange (page : Nat) : HeapRange := ⟨page * 4096, page * 4096 + 4096⟩

/-- A call of `deallocate` for a last range of one page. -/
theorem deallocate_one {pid page f : Nat} {ranges : List HeapRange}
    (found : findProcess k.sched (root * 4096) = some pid)
    (last : (k.sched.normalProcess pid).heapRange = ranges ++ [pageRange page])
    (before : ∀ r ∈ ranges, r.stop ≤ page * 4096) (bound : page < 2 ^ 35) (there : translate k.mem root page = some f)
    (trail : Trail True c s R pend k) (member : root ∈ R) :
    wp (deallocate mapper.toPageMapper (root * 4096) (page * 4096))
      (fun _ k' => k'.alloc = k.alloc.deallocateContiguous f 1 ∧ k'.sched = withHeap k.sched pid ranges ∧
        translate k'.mem root page = none ∧ missingTables k'.mem root page = 0 ∧
        ∀ page', page' < 2 ^ 35 → page' ≠ page → translate k'.mem root page' = translate k.mem root page')
      (fun _ _ => False) k := by
  have hit : HeapRange.contains (pageRange page) (page * 4096) = true := by
    simp [HeapRange.contains, pageRange]
  have missed : ∀ r ∈ ranges, HeapRange.contains r (page * 4096) = false := by
    intro r there
    have below := before r there
    unfold HeapRange.contains
    rw [decide_eq_false (show ¬page * 4096 < r.stop by omega), Bool.and_false]
  obtain ⟨here, entry, rest⟩ := last_range missed hit
  have count : divCeil ((pageRange page).stop - (pageRange page).start) pageSize = 1 := by
    rw [divCeil_page, pageRange]
    dsimp only
    omega
  have start : ((pageRange page).start + 0 * 4096) / 4096 = page := by
    show (page * 4096 + 0 * 4096) / 4096 = page
    omega
  obtain ⟨m', run⟩ := mapper.unmap_exact bound there
  have unmapped := mapper.unmap_unmapped trail.stage.owns member bound run
  refine wp_bind (wp_read ?_)
  rw [found]
  dsimp only
  rw [last, here, Nat.mul_div_cancel root (by decide)]
  dsimp only
  rw [entry, rest, count]
  refine wp_bind (wp_bind (wp_pageAt fun _ => ?_))
  rw [start]
  refine wp_bind (wp_bind (wp_unmap mapper.toPageMapper fun frame m out => ?_))
  rw [run] at out
  cases out
  refine wp_write (wp_pure (wp_bind (wp_write (wp_pure ⟨rfl, rfl, ?_, ?_, fun page' bound' other => ?_⟩))))
  · refine Option.eq_none_iff_forall_ne_some.mpr fun y still => ?_
    exact ((unmapped.pages root page y member bound).mp still).2 ⟨rfl, rfl⟩
  · obtain ⟨p, i, t, lastEntry, mapped, rfl⟩ := mapper.unmap_ok bound run
    exact (lastEntry.unmapped trail.stage.owns member bound mapped).missingTables
  · refine Option.ext fun y => (unmapped.pages root page' y member bound').trans (and_iff_left ?_)
    exact fun same => other same.2

end Page

end Kernel

/-- The process gets no heap at all: something else is at its start already, or
there are not enough frames for the first page and its tables. -/
def Kernel.NoHeap (k : Kernel) (root : Nat) : Prop :=
  translate k.mem root 0x180000 ≠ none ∨ k.alloc.freeFrames ≤ missingTables k.mem root 0x180000

namespace Kernel
open Prog

section
variable {c : Snapshot} {s : Sched} {R : Set Nat} {pend : List Nat} {k : Kernel} {root : Nat} (mapper : ExactMapper)
  (growth : VecGrowth)

theorem giveUp_nothing : giveUp mapper.toPageMapper root [] {} k = some (.error (-18), k) := rfl

/-- The first page is refused, and so will be the next one that is asked for. -/
theorem growPages_blocked (left : Nat) (trail : Trail True c s R pend k) (member : root ∈ R) (small : SmallPages k.mem R)
    (wide : k.alloc.maxPage ≤ 2 ^ 40) (blocked : k.NoHeap root) :
    ∃ k', growPages mapper.toPageMapper growth root 0x180000000 (left + 1) 0 [] {} k = some (.error (-18), k') ∧
      k'.NoHeap root := by
  unfold growPages
  cases run : k.alloc.allocateContiguous 1 with
  | none =>
    rw [bind_ok (allocateFrame_none run)]
    exact ⟨k, giveUp_nothing mapper, blocked⟩
  | some out =>
    obtain ⟨phys, a⟩ := out
    obtain ⟨taken, inside, size, cost⟩ := trail.takeFrame run
    have owns : Owns k.mem a R _ := taken.stage.owns
    have bound : 0x180000 < 2 ^ 35 := by decide
    have ok : PageFlags.Ok heapFlags := by decide
    rw [bind_ok (allocateFrame_some run)]
    cases mapped : mapper.mapTo k.mem a root 0x180000 phys heapFlags with
    | mk done rest =>
      obtain ⟨m', a'⟩ := rest
      cases done with
      | true =>
        obtain ⟨free, frames⟩ := mapTo_counts_ok owns member bound ok (by omega) mapped
        rcases blocked with used | few
        · exact absurd free used
        · omega
      | false =>
        obtain ⟨same, links, frames, tables, _⟩ := mapTo_counts_err owns member bound ok (by omega) small (by omega) mapped
        refine ⟨{ k with mem := m', alloc := a' }, ?_, blocked.imp (fun used => ?_) fun few => ?_⟩
        · have second : (pageAt (0x180000000 + 0 * 4096) : Prog Kernel Int Nat) { k with alloc := a } =
              some (.ok 0x180000, { k with alloc := a }) := rfl
          have third : (mapTo mapper.toPageMapper root 0x180000 phys heapFlags : Prog Kernel Int Bool)
              { k with alloc := a } = some (.ok false, { k with mem := m', alloc := a' }) := mapTo_run _ mapped
          dsimp only
          rw [bind_ok second, bind_ok third]
          exact giveUp_nothing mapper
        · show translate m' root 0x180000 ≠ none
          rw [same]
          exact used
        · show a'.freeFrames ≤ missingTables m' root 0x180000
          omega

end

end Kernel

/-- Ranges of one page each, back to back from the start of the heap. -/
def blocks (n : Nat) : List HeapRange := (List.range n).map fun i => Kernel.pageRange (0x180000 + i)

theorem blocks_succ (n : Nat) : blocks (n + 1) = blocks n ++ [Kernel.pageRange (0x180000 + n)] := by
  rw [blocks, List.range_succ, List.map_append]
  rfl

theorem blocks_below {n : Nat} {r : HeapRange} (member : r ∈ blocks n) : r.stop ≤ (0x180000 + n) * 4096 := by
  obtain ⟨i, inside, rfl⟩ := List.mem_map.mp member
  have bound := List.mem_range.mp inside
  show (0x180000 + i) * 4096 + 4096 ≤ (0x180000 + n) * 4096
  omega

theorem heapTop_blocks (n : Nat) : Kernel.heapTop (blocks n) = (0x180000 + n) * 4096 := by
  cases n with
  | zero => rfl
  | succ n =>
    have highest : ((blocks (n + 1)).map HeapRange.stop).max? = some ((0x180000 + n) * 4096 + 4096) := by
      rw [List.max?_eq_some_iff, blocks_succ]
      refine ⟨List.mem_map.mpr ⟨_, List.mem_append_right _ (List.mem_singleton_self _), rfl⟩, fun stop there => ?_⟩
      obtain ⟨r, member, rfl⟩ := List.mem_map.mp there
      rw [← blocks_succ] at member
      have below := blocks_below member
      omega
    rw [Kernel.heapTop, highest, Option.getD_some]
    omega

theorem nextRange_blocks (n : Nat) : Kernel.nextRange (blocks n) 1 = Kernel.pageRange (0x180000 + n) := by
  rw [Kernel.nextRange, heapTop_blocks]
  rfl

/-- What the panics below need to know about the machine. -/
structure Kernel.Plain (k : Kernel) (R : Set Nat) : Prop where
  owns : Owns k.mem k.alloc R ∅
  small : SmallPages k.mem R
  wide : k.alloc.maxPage ≤ 2 ^ 40
  sized : k.alloc.Sized

namespace HeapState

/-- Some sequence of calls ends in a panic. -/
def Panics (mapper : PageMapper) (growth : VecGrowth) (table : Nat) (h : HeapState) : Prop :=
  ∃ calls, h.calls mapper growth table calls = none

theorem Panics.call {mapper : PageMapper} {growth : VecGrowth} {table : Nat} {h : HeapState} (call : MemorySyscall)
    (next : ∀ result h', h.call mapper growth table call = some (result, h') → h'.Panics mapper growth table) :
    h.Panics mapper growth table := by
  cases run : h.call mapper growth table call with
  | none =>
    refine ⟨[call], ?_⟩
    rw [HeapState.calls, run, Option.bind_none]
  | some out =>
    obtain ⟨calls, panic⟩ := next out.1 out.2 run
    refine ⟨call :: calls, ?_⟩
    rw [HeapState.calls, run, Option.bind_some]
    exact panic

section
variable {k0 : Kernel} {R : Set Nat} {root pid n f : Nat} {h : HeapState} (mapper : ExactMapper) (growth : VecGrowth)

theorem Sound.shape (sound : h.Sound k0 R root pid) : h.kernel.alloc.shape = k0.alloc.shape := sound.trail.edits.shape

theorem Sound.plain (sound : h.Sound k0 R root pid) (plain : k0.Plain R) : h.kernel.Plain R := by
  have shape := sound.shape
  have owned : (k0.snapshot R []).Owned := plain.owns.restrict (fun _ => id) fun _ none => absurd none List.not_mem_nil
  refine ⟨sound.trail.stage.owns.restrict (fun _ => id) (Set.empty_subset _),
    sound.trail.edits.lowEntries entryRule_single owned plain.small, ?_, plain.sized.of_shape shape⟩
  have pages : h.kernel.alloc.maxPage = k0.alloc.maxPage := congrArg Prod.fst shape
  rw [pages]
  exact plain.wide

/-- The heap consists of `n` blocks. -/
structure Packed (k0 : Kernel) (R : Set Nat) (root pid n : Nat) (h : HeapState) : Prop where
  sound : h.Sound k0 R root pid
  ranges : h.live pid = blocks n

/-- The other pages of the process are as before. -/
def SameBut (root page : Nat) (h h' : HeapState) : Prop :=
  ∀ page', page' < 2 ^ 35 → page' ≠ page → translate h'.kernel.mem root page' = translate h.kernel.mem root page'

/-- What one more block costs. -/
theorem Packed.allocate_counts (packed : h.Packed k0 R root pid n) (plain : k0.Plain R) (member : root ∈ R) :
    Kernel.heapTop (h.kernel.sched.normalProcess pid).heapRange / 4096 = 0x180000 + n ∧
      Prog.wp (Kernel.allocateHeap mapper.toPageMapper growth (root * 4096) (1 : UInt64).toNat h.ranges)
        (fun _ k' => ∃ f, Kernel.OnePage root (0x180000 + n) h.kernel k' f)
        (fun _ k' => Kernel.NoPage root (0x180000 + n) h.kernel k') h.kernel := by
  have now := packed.sound.plain plain
  have page : Kernel.heapTop (h.kernel.sched.normalProcess pid).heapRange / 4096 = 0x180000 + n := by
    rw [show (h.kernel.sched.normalProcess pid).heapRange = blocks n from packed.ranges, heapTop_blocks]
    exact Nat.mul_div_cancel _ (by decide)
  refine ⟨page, ?_⟩
  have counts := Kernel.allocateHeap_one growth mapper h.ranges packed.sound.found packed.sound.trail member now.small now.wide
    now.sized
  rw [page] at counts
  exact counts

theorem Packed.panics_of_allocate (packed : h.Packed k0 R root pid n) (plain : k0.Plain R) (member : root ∈ R)
    (mapped : ∀ (h' : HeapState) f, h'.Packed k0 R root pid (n + 1) → SameBut root (0x180000 + n) h h' →
      Kernel.OnePage root (0x180000 + n) h.kernel h'.kernel f → h'.Panics mapper.toPageMapper growth (root * 4096))
    (refused : ∀ h' : HeapState, h'.Packed k0 R root pid n → SameBut root (0x180000 + n) h h' →
      Kernel.NoPage root (0x180000 + n) h.kernel h'.kernel → h'.Panics mapper.toPageMapper growth (root * 4096)) :
    h.Panics mapper.toPageMapper growth (root * 4096) := by
  have sound := packed.sound
  have aligned := (heapTop_spec sound.shaped).1
  have step := sound.allocate mapper growth member 1
  have others := Kernel.allocateHeap_heaped mapper growth (1 : UInt64).toNat sound.found Heaped.refl aligned
    sound.shape.symm sound.trail member
  obtain ⟨page, counts⟩ := packed.allocate_counts mapper growth plain member
  refine Panics.call (.allocate 1) fun result h' run => ?_
  rcases allocate_cases growth run with ⟨addr, rfl, out⟩ | ⟨e, rfl, same, out⟩
  · obtain ⟨sound', _, live⟩ := step.ok out
    obtain ⟨_, top, rfl, rfl, _, _, _, kept, _⟩ := others.ok out
    obtain ⟨f, one⟩ := counts.ok out
    refine mapped h' f ⟨sound', ?_⟩ (fun page' bound other => kept.kept page' bound ?_) one
    · rw [packed.ranges, show (1 : UInt64).toNat = 1 from rfl, nextRange_blocks, ← blocks_succ] at live
      exact live
    · rw [page]
      rintro (none | here)
      · cases none
      · exact other (List.mem_singleton.mp here)
  · obtain ⟨sound', live⟩ := step.error out
    have kept := (others.error out).1
    rw [← same] at sound' live
    exact refused h' ⟨sound', live.trans packed.ranges⟩ (fun page' bound _ => kept.kept page' bound id) (counts.error out)

/-- The last block. -/
theorem Packed.last (packed : h.Packed k0 R root pid (n + 1)) :
    0x180000 + n < 2 ^ 35 ∧ ∃ f, translate h.kernel.mem root (0x180000 + n) = some f ∧ h.kernel.alloc.InStock f := by
  have inside : 0x180000 + n ∈ heapPages (h.live pid) := by
    rw [packed.ranges, blocks_succ]
    refine ⟨Kernel.pageRange (0x180000 + n), List.mem_append_right _ (List.mem_singleton_self _), Nat.le_refl _, ?_⟩
    show (0x180000 + n) * 4096 < (0x180000 + n) * 4096 + 4096
    omega
  obtain ⟨f, there, stock⟩ := packed.sound.heaped.mapped _ inside
  exact ⟨packed.sound.heaped.low _ inside, f, there, stock.of_shape packed.sound.shape⟩

theorem Packed.panics_of_deallocate (packed : h.Packed k0 R root pid (n + 1)) (member : root ∈ R)
    (there : translate h.kernel.mem root (0x180000 + n) = some f)
    (next : ∀ h' : HeapState, h'.Packed k0 R root pid n → SameBut root (0x180000 + n) h h' →
      h'.kernel.alloc = h.kernel.alloc.deallocateContiguous f 1 → translate h'.kernel.mem root (0x180000 + n) = none →
      missingTables h'.kernel.mem root (0x180000 + n) = 0 → h'.Panics mapper.toPageMapper growth (root * 4096)) :
    h.Panics mapper.toPageMapper growth (root * 4096) := by
  have sound := packed.sound
  have bound := packed.last.1
  have addr : (UInt64.ofNat ((0x180000 + n) * 4096)).toNat = (0x180000 + n) * 4096 :=
    UInt64.toNat_ofNat_of_lt (by show _ < 2 ^ 64; omega)
  refine Panics.call (.deallocate (UInt64.ofNat ((0x180000 + n) * 4096))) fun result h' run => ?_
  obtain ⟨same, out⟩ := deallocate_cases growth run
  rw [addr] at out
  have step := sound.deallocate mapper member ((0x180000 + n) * 4096)
  rw [← same] at step
  have freed := Kernel.deallocate_one mapper sound.found (packed.ranges.trans (blocks_succ n))
    (fun r there => blocks_below there) bound there sound.trail member
  cases result with
  | error e => exact (freed.error out).elim
  | ok value =>
    obtain ⟨alloc, sched, none, tables, others⟩ := freed.ok out
    refine next h' ⟨step.ok out, ?_⟩ others alloc none tables
    show (h'.kernel.sched.normalProcess pid).heapRange = blocks n
    rw [sched, Kernel.heapRange_withHeap]

/-- There are just enough frames for the next page and its tables: it is mapped,
and the list of pages finds no room. -/
theorem Packed.allocate_panics (packed : h.Packed k0 R root pid n) (plain : k0.Plain R) (member : root ∈ R)
    (free : translate h.kernel.mem root (0x180000 + n) = none)
    (last : h.kernel.alloc.freeFrames = missingTables h.kernel.mem root (0x180000 + n) + 1) :
    h.call mapper.toPageMapper growth (root * 4096) (.allocate 1) = none := by
  obtain ⟨_, counts⟩ := packed.allocate_counts mapper growth plain member
  refine Option.eq_none_iff_forall_ne_some.mpr ?_
  rintro ⟨result, h'⟩ run
  rcases allocate_cases growth run with ⟨addr, rfl, out⟩ | ⟨e, rfl, same, out⟩
  · obtain ⟨f, one⟩ := counts.ok out
    have enough := one.enough
    omega
  · have refused := (counts.error out).refused free
    omega

theorem Packed.panics_ready (packed : h.Packed k0 R root pid n) (plain : k0.Plain R) (member : root ∈ R)
    (free : translate h.kernel.mem root (0x180000 + n) = none)
    (tables : missingTables h.kernel.mem root (0x180000 + n) = 0) (single : h.kernel.alloc.freeFrames = 1) :
    h.Panics mapper.toPageMapper growth (root * 4096) := by
  have panic := packed.allocate_panics mapper growth plain member free (by omega)
  exact Panics.call (.allocate 1) fun result h' run => nomatch panic.symm.trans run

/-- The last block is given back and asked for again. -/
theorem Packed.panics_full (packed : h.Packed k0 R root pid (n + 1)) (plain : k0.Plain R) (member : root ∈ R)
    (there : translate h.kernel.mem root (0x180000 + n) = some f)
    (other : f ≠ k0.alloc.reserved + k0.alloc.selfUsedPage) (full : h.kernel.alloc.freeFrames = 0) :
    h.Panics mapper.toPageMapper growth (root * 4096) := by
  obtain ⟨bound, g, here, stock⟩ := packed.last
  cases Option.some.inj (there.symm.trans here)
  have used := (packed.sound.trail.stage.owns.spaces.placed f ⟨root, _, member, pagePath_low bound, there⟩).1
  have above : h.kernel.alloc.reserved + h.kernel.alloc.selfUsedPage < f := by
    have lower := stock.1
    have same := FrameAlloc.boundary_of_shape packed.sound.shape
    omega
  have freed := FrameAlloc.freeFrames_deallocate (n := 1) (packed.sound.plain plain).sized above stock.2 fun q lower upper =>
    (show f = q by omega) ▸ used
  refine packed.panics_of_deallocate mapper growth member there fun h' packed' _ alloc none tables => ?_
  refine packed'.panics_ready mapper growth plain member none tables ?_
  rw [alloc, freed, full]

/-- The first block lies on a frame that can be given back. -/
def Recoverable (k0 : Kernel) (root : Nat) (h : HeapState) : Prop :=
  ∃ f, translate h.kernel.mem root 0x180000 = some f ∧ f ≠ k0.alloc.reserved + k0.alloc.selfUsedPage

theorem Recoverable.next {h' : HeapState} {page : Nat} (first : Recoverable k0 root h) (same : SameBut root page h h')
    (other : 0x180000 ≠ page) : Recoverable k0 root h' := by
  obtain ⟨f, there, apart⟩ := first
  exact ⟨f, (same 0x180000 (by decide) other).trans there, apart⟩

/-- Without free frames a block is given back and asked for again. A block on
the boundary frame does not help, but then the one before does. -/
theorem Packed.panics_exhausted (packed : h.Packed k0 R root pid (n + 1)) (plain : k0.Plain R) (member : root ∈ R)
    (first : Recoverable k0 root h) (full : h.kernel.alloc.freeFrames = 0) :
    h.Panics mapper.toPageMapper growth (root * 4096) := by
  induction n generalizing h with
  | zero =>
    obtain ⟨f, there, other⟩ := first
    exact packed.panics_full mapper growth plain member there other full
  | succ n ih =>
    obtain ⟨_, f, there, _⟩ := packed.last
    by_cases boundary : f = k0.alloc.reserved + k0.alloc.selfUsedPage
    · refine packed.panics_of_deallocate mapper growth member there fun h' packed' same alloc _ _ => ?_
      refine ih packed' (first.next same (by omega)) ?_
      have lost : h.kernel.alloc.deallocateContiguous f 1 = h.kernel.alloc :=
        if_pos (by rw [boundary, FrameAlloc.boundary_of_shape packed.sound.shape])
      rw [alloc, lost, full]
    · exact packed.panics_full mapper growth plain member there boundary full

/-- With a block in hand the process takes all free frames, one call after the
other, and then it panics. -/
theorem Packed.panics (packed : h.Packed k0 R root pid (n + 1)) (plain : k0.Plain R) (member : root ∈ R)
    (first : Recoverable k0 root h) : h.Panics mapper.toPageMapper growth (root * 4096) := by
  induction free : h.kernel.alloc.freeFrames using Nat.strongRecOn generalizing h n with
  | ind frames ih =>
    by_cases full : h.kernel.alloc.freeFrames = 0
    · exact packed.panics_exhausted mapper growth plain member first full
    · refine packed.panics_of_allocate mapper growth plain member (fun h' f packed' same one => ?_)
        fun h' packed' same no => ?_
      · exact ih _ (free ▸ one.frames) packed' (first.next same (by omega)) rfl
      · exact ih _ (free ▸ no.frames.resolve_left full) packed' (first.next same (by omega)) rfl

/-- A process that can get a first heap page can make the kernel panic. If
this page lies on the boundary frame, it is given back and asked for again. -/
theorem Packed.panics_from_start (packed : h.Packed k0 R root pid 0) (plain : k0.Plain R) (member : root ∈ R)
    (free : translate h.kernel.mem root 0x180000 = none)
    (enough : missingTables h.kernel.mem root 0x180000 < h.kernel.alloc.freeFrames) :
    h.Panics mapper.toPageMapper growth (root * 4096) := by
  refine packed.panics_of_allocate mapper growth plain member (fun h1 f packed1 _ one => ?_) fun h1 _ _ no => ?_
  · have there : translate h1.kernel.mem root 0x180000 = some f := one.mapped
    by_cases boundary : f = k0.alloc.reserved + k0.alloc.selfUsedPage
    · have another := one.another (boundary.trans (FrameAlloc.boundary_of_shape packed.sound.shape).symm)
      have used := (packed1.sound.trail.stage.owns.spaces.placed f
        ⟨root, _, member, pagePath_low (by decide), there⟩).1
      refine packed1.panics_of_deallocate mapper growth member there fun h2 packed2 _ alloc none tables => ?_
      have lost : h1.kernel.alloc.deallocateContiguous f 1 = h1.kernel.alloc :=
        if_pos (by rw [boundary, FrameAlloc.boundary_of_shape packed1.sound.shape])
      rw [lost] at alloc
      refine packed2.panics_of_allocate mapper growth plain member (fun h3 g packed3 _ again => ?_) fun h3 _ _ no => ?_
      · refine packed3.panics mapper growth plain member ⟨g, again.mapped, fun same => again.unused ?_⟩
        rw [alloc, same, ← boundary]
        exact used
      · have refused := no.refused none
        rw [alloc] at refused
        omega
    · exact packed1.panics mapper growth plain member ⟨f, there, boundary⟩
  · have refused := no.refused free
    exact absurd enough (Nat.not_lt.mpr refused)

/-- A process without a heap gets no page. -/
theorem Packed.allocate_blocked (packed : h.Packed k0 R root pid 0) (plain : k0.Plain R) (member : root ∈ R)
    (blocked : h.kernel.NoHeap root) {size : UInt64} (positive : size.toNat ≠ 0) :
    ∃ k', Kernel.allocateHeap mapper.toPageMapper growth (root * 4096) size.toNat h.ranges h.kernel = some (.error (-18), k') ∧
      k'.NoHeap root := by
  have sound := packed.sound
  have now := sound.plain plain
  have empty : (h.kernel.sched.normalProcess pid).heapRange = [] := packed.ranges
  have start : (Prog.read Kernel.sched : Prog Kernel Int Sched) h.kernel = some (.ok h.kernel.sched, h.kernel) := rfl
  obtain ⟨left, pages⟩ : ∃ left, divCeil size.toNat pageSize = left + 1 := by
    refine Nat.exists_eq_succ_of_ne_zero ?_
    rw [divCeil_page]
    omega
  obtain ⟨k', run, still⟩ := Kernel.growPages_blocked mapper growth left sound.trail member now.small now.wide blocked
  refine ⟨k', ?_, still⟩
  rw [Kernel.allocateHeap, if_neg positive, Prog.bind_ok start, sound.found]
  dsimp only
  rw [empty, pages, Nat.mul_div_cancel root (by decide)]
  exact Prog.bind_error run

/-- Every call of a process without a heap returns an error. -/
theorem Packed.call_blocked (packed : h.Packed k0 R root pid 0) (plain : k0.Plain R) (member : root ∈ R)
    (blocked : h.kernel.NoHeap root) (call : MemorySyscall) :
    ∃ e h', h.call mapper.toPageMapper growth (root * 4096) call = some (.error e, h') ∧
      h'.Packed k0 R root pid 0 ∧ h'.kernel.NoHeap root := by
  have sound := packed.sound
  cases call with
  | allocate size =>
    have fails : ∃ e k', Kernel.allocateHeap mapper.toPageMapper growth (root * 4096) size.toNat h.ranges h.kernel =
        some (.error e, k') ∧ k'.NoHeap root := by
      by_cases zero : size.toNat = 0
      · exact ⟨-16, h.kernel, by rw [Kernel.allocateHeap, if_pos zero]; rfl, blocked⟩
      · exact ⟨-18, packed.allocate_blocked mapper growth plain member blocked zero⟩
    obtain ⟨e, k', run, still⟩ := fails
    obtain ⟨sound', live⟩ := (sound.allocate mapper growth member size).error run
    refine ⟨e, { h with kernel := k' }, ?_, ⟨sound', live.trans packed.ranges⟩, still⟩
    rw [HeapState.call, run]
  | deallocate addr =>
    have empty : (h.kernel.sched.normalProcess pid).heapRange = [] := packed.ranges
    have start : (Prog.read Kernel.sched : Prog Kernel Int Sched) h.kernel = some (.ok h.kernel.sched, h.kernel) := rfl
    have run : Kernel.deallocate mapper.toPageMapper (root * 4096) addr.toNat h.kernel = some (.error (-17), h.kernel) := by
      rw [Kernel.deallocate, Prog.bind_ok start, sound.found]
      dsimp only
      rw [empty]
      rfl
    refine ⟨-17, h, ?_, packed, blocked⟩
    rw [HeapState.call, run]

theorem Packed.calls_blocked (packed : h.Packed k0 R root pid 0) (plain : k0.Plain R) (member : root ∈ R)
    (blocked : h.kernel.NoHeap root) (calls : List MemorySyscall) :
    ∃ h', h.calls mapper.toPageMapper growth (root * 4096) calls = some h' := by
  induction calls generalizing h with
  | nil => exact ⟨h, rfl⟩
  | cons call calls ih =>
    obtain ⟨e, h1, run, packed1, blocked1⟩ := packed.call_blocked mapper growth plain member blocked call
    obtain ⟨h', more⟩ := ih packed1 blocked1
    refine ⟨h', ?_⟩
    rw [HeapState.calls, run, Option.bind_some]
    exact more

/-- A range that is handed out lies apart from all others. -/
theorem Sound.allocated {h' : HeapState} {size : UInt64} {addr : Int} (sound : h.Sound k0 R root pid) (member : root ∈ R)
    (run : h.call mapper.toPageMapper growth (root * 4096) (.allocate size) = some (.ok addr, h')) :
    0 < addr ∧ ∀ r ∈ h.live pid, (r.stop : Int) ≤ addr ∨ addr + 4096 * divCeil size.toNat pageSize ≤ r.start := by
  rcases allocate_cases growth run with ⟨_, same, out⟩ | ⟨_, same, _⟩
  · cases same
    obtain ⟨_, rfl, _⟩ := (sound.allocate mapper growth member size).ok out
    obtain ⟨_, above, upper⟩ := heapTop_spec sound.shaped
    refine ⟨by omega, fun r there => Or.inl ?_⟩
    have below := upper r there
    omega
  · cases same

end

end HeapState

namespace Kernel

theorem Boot.sized {map : MemoryMap} {k : Kernel} (boot : k.Boot map) : k.alloc.Sized := by
  obtain ⟨initial, live, freed, init, reach⟩ := boot.alloc
  have start := FrameAlloc.init_initial init
  have tracks := reach.tracks start
  intro q inside
  rw [tracks.length]
  exact start.inside (tracks.maxPage ▸ inside)

end Kernel

end ProkaKernel
