import ProkaKernel.HeapCalls
import ProkaKernel.Isolation

namespace ProkaKernel

/-- Since `k0` the pages `P` were mapped below `root`, to frames that the
allocator hands out, and no other page has changed. -/
structure Heaped (root : Nat) (k0 k : Kernel) (P : Set Nat) : Prop where
  low : ∀ page ∈ P, page < 2 ^ 35
  free : ∀ page ∈ P, translate k0.mem root page = none
  kept : ∀ page, page < 2 ^ 35 → page ∉ P → translate k.mem root page = translate k0.mem root page
  mapped : ∀ page ∈ P, ∃ f, translate k.mem root page = some f ∧ k0.alloc.InStock f

section
variable {root : Nat} {k0 k k' : Kernel} {P : Set Nat}

theorem Heaped.refl : Heaped root k k ∅ where
  low _ none := none.elim
  free _ none := none.elim
  kept _ _ _ := rfl
  mapped _ none := none.elim

/-- A heap call that maps further pages. -/
theorem Heaped.call {c : Snapshot} {s : Sched} {R gone Q : Set Nat} {pend rest : List Nat} (heaped : Heaped root k0 k P)
    (call : InCall c s k R root gone pend rest Q k') (member : root ∈ R) (shape : k.alloc.shape = k0.alloc.shape) :
    Heaped root k0 k' (P ∪ Q) := by
  have fresh {page : Nat} (new : page ∈ Q) : page ∉ P := by
    intro old
    obtain ⟨f, there, _⟩ := heaped.mapped page old
    rw [call.free page new] at there
    cases there
  have same {page : Nat} (bound : page < 2 ^ 35) (outside : page ∉ Q) :=
    call.kept root member page bound fun both => outside both.2
  refine ⟨?_, ?_, fun page bound outside => ?_, ?_⟩
  · rintro page (old | new)
    · exact heaped.low page old
    · exact call.low page new
  · rintro page (old | new)
    · exact heaped.free page old
    · exact (heaped.kept page (call.low page new) (fresh new)).symm.trans (call.free page new)
  · obtain ⟨notOld, notNew⟩ := not_or.mp outside
    exact (same bound notNew).trans (heaped.kept page bound notOld)
  · rintro page (old | new)
    · rw [same (heaped.low page old) fun new => fresh new old]
      exact heaped.mapped page old
    · obtain ⟨f, there, stock, _⟩ := call.mapped page new
      exact ⟨f, there, stock.of_shape shape.symm⟩

/-- A heap call that unmaps some of these pages. -/
theorem Heaped.shrink {Q : Set Nat} [DecidablePred (· ∈ Q)] (heaped : Heaped root k0 k (P ∪ Q))
    (fresh : ∀ page ∈ Q, page ∉ P)
    (after : ∀ page, page < 2 ^ 35 → translate k'.mem root page = if page ∈ Q then none else translate k.mem root page) :
    Heaped root k0 k' P := by
  refine ⟨fun page old => heaped.low page (Or.inl old), fun page old => heaped.free page (Or.inl old),
    fun page bound outside => ?_, fun page old => ?_⟩
  · rw [after page bound]
    split
    · rename_i gone
      exact (heaped.free page (Or.inr gone)).symm
    · rename_i other
      exact heaped.kept page bound fun either => either.elim outside other
  · rw [after page (heaped.low page (Or.inl old)), if_neg fun gone => fresh page gone old]
    exact heaped.mapped page (Or.inl old)

end

/-- The virtual pages of a process's heap. -/
def heapPages (ranges : List HeapRange) : Set Nat :=
  { page | ∃ r ∈ ranges, r.start ≤ page * 4096 ∧ page * 4096 < r.stop }

/-- What a process's `heap_range` always looks like. -/
structure Shaped (ranges : List HeapRange) : Prop where
  nonempty : ∀ r ∈ ranges, r.start < r.stop
  aligned : ∀ r ∈ ranges, r.start % 4096 = 0 ∧ r.stop % 4096 = 0
  above : ∀ r ∈ ranges, 0x180000000 ≤ r.start
  disjoint : ranges.Pairwise fun r r' => r.stop ≤ r'.start ∨ r'.stop ≤ r.start

section
variable {ranges ranges' : List HeapRange} {r : HeapRange}

theorem Shaped.nil : Shaped [] where
  nonempty _ none := absurd none List.not_mem_nil
  aligned _ none := absurd none List.not_mem_nil
  above _ none := absurd none List.not_mem_nil
  disjoint := .nil

theorem heapPages_nil : heapPages [] = ∅ :=
  Set.eq_empty_of_forall_notMem fun _ ⟨_, member, _⟩ => absurd member List.not_mem_nil

theorem Shaped.perm (shaped : Shaped ranges) (perm : ranges.Perm ranges') : Shaped ranges' where
  nonempty r member := shaped.nonempty r (perm.mem_iff.mpr member)
  aligned r member := shaped.aligned r (perm.mem_iff.mpr member)
  above r member := shaped.above r (perm.mem_iff.mpr member)
  disjoint := (perm.pairwise_iff fun either => either.symm).mp shaped.disjoint

theorem Shaped.cons_iff : Shaped (r :: ranges) ↔ (r.start < r.stop ∧ (r.start % 4096 = 0 ∧ r.stop % 4096 = 0) ∧
    0x180000000 ≤ r.start ∧ ∀ r' ∈ ranges, r.stop ≤ r'.start ∨ r'.stop ≤ r.start) ∧ Shaped ranges := by
  constructor
  · intro shaped
    obtain ⟨apart, disjoint⟩ := List.pairwise_cons.mp shaped.disjoint
    have first := List.mem_cons_self (a := r) (l := ranges)
    refine ⟨⟨shaped.nonempty r first, shaped.aligned r first, shaped.above r first, apart⟩, ?_⟩
    exact ⟨fun r' later => shaped.nonempty r' (List.mem_cons_of_mem r later),
      fun r' later => shaped.aligned r' (List.mem_cons_of_mem r later),
      fun r' later => shaped.above r' (List.mem_cons_of_mem r later), disjoint⟩
  · rintro ⟨⟨nonempty, aligned, above, apart⟩, shaped⟩
    exact ⟨List.forall_mem_cons.mpr ⟨nonempty, shaped.nonempty⟩, List.forall_mem_cons.mpr ⟨aligned, shaped.aligned⟩,
      List.forall_mem_cons.mpr ⟨above, shaped.above⟩, List.pairwise_cons.mpr ⟨apart, shaped.disjoint⟩⟩

theorem heapPages_perm (perm : ranges.Perm ranges') : heapPages ranges = heapPages ranges' := by
  ext page
  exact exists_congr fun r => and_congr_left fun _ => perm.mem_iff

theorem mem_pages_iff (aligned : r.start % 4096 = 0 ∧ r.stop % 4096 = 0) (page : Nat) :
    page ∈ List.range' (r.start / 4096) (divCeil (r.stop - r.start) pageSize) ↔
      r.start ≤ page * 4096 ∧ page * 4096 < r.stop := by
  rw [List.mem_range'_1, divCeil_page]
  omega

theorem heapPages_cons (aligned : r.start % 4096 = 0 ∧ r.stop % 4096 = 0) :
    heapPages (r :: ranges) =
      heapPages ranges ∪ { page | page ∈ List.range' (r.start / 4096) (divCeil (r.stop - r.start) pageSize) } := by
  ext page
  rw [Set.mem_union, Set.mem_ofPred_eq, mem_pages_iff aligned]
  constructor
  · rintro ⟨r', member, inside⟩
    rcases List.mem_cons.mp member with rfl | later
    · exact Or.inr inside
    · exact Or.inl ⟨r', later, inside⟩
  · rintro (⟨r', later, inside⟩ | inside)
    · exact ⟨r', List.mem_cons_of_mem r later, inside⟩
    · exact ⟨r, List.mem_cons_self .., inside⟩

theorem Shaped.pages_apart (shaped : Shaped (r :: ranges)) :
    ∀ page ∈ List.range' (r.start / 4096) (divCeil (r.stop - r.start) pageSize), page ∉ heapPages ranges := by
  obtain ⟨⟨_, aligned, _, apart⟩, _⟩ := Shaped.cons_iff.mp shaped
  intro page here ⟨r', later, inside⟩
  rw [mem_pages_iff aligned] at here
  have either := apart r' later
  omega

open Kernel in
/-- The next range starts behind all others. -/
theorem heapTop_spec (shaped : Shaped ranges) : heapTop ranges % 4096 = 0 ∧ 0x180000000 ≤ heapTop ranges ∧
    ∀ r ∈ ranges, r.stop ≤ heapTop ranges := by
  unfold heapTop
  cases highest : (ranges.map HeapRange.stop).max? with
  | none =>
    rw [List.max?_eq_none_iff, List.map_eq_nil_iff] at highest
    subst highest
    exact ⟨rfl, Nat.le_refl _, fun _ none => absurd none List.not_mem_nil⟩
  | some stop =>
    obtain ⟨member, upper⟩ := List.max?_eq_some_iff.mp highest
    obtain ⟨r, there, rfl⟩ := List.mem_map.mp member
    have start := shaped.above r there
    have later := shaped.nonempty r there
    refine ⟨(shaped.aligned r there).2, ?_, fun r' member' => upper _ (List.mem_map_of_mem member')⟩
    rw [Option.getD_some]
    omega

end

namespace Kernel
open Prog

theorem findProcess_withHeap (s : Sched) (pid : Nat) (ranges : List HeapRange) (userTable : Nat) :
    findProcess (withHeap s pid ranges) userTable = findProcess s userTable := by
  refine congrArg firstSlot (funext fun i => ?_)
  show ((Function.update s.normalProcess pid _ i).tableAddr == userTable) = _
  by_cases same : i = pid
  · rw [same, Function.update_self]
  · rw [Function.update_of_ne same]

theorem heapRange_withHeap (s : Sched) (pid : Nat) (ranges : List HeapRange) :
    ((withHeap s pid ranges).normalProcess pid).heapRange = ranges := by
  show (Function.update s.normalProcess pid _ pid).heapRange = ranges
  rw [Function.update_self]

section Calls
variable {c : Snapshot} {R P : Set Nat} {k0 k : Kernel} {root pid : Nat} (mapper : ExactMapper) {pend : List Nat}
  {buf : Buffer}

/-- A call of `allocate` adds a range at the top and maps its pages, or it
leaves the ranges and the pages as they were. -/
theorem allocateHeap_heaped (growth : VecGrowth) (size : Nat) (found : findProcess k.sched (root * 4096) = some pid)
    (heaped : Heaped root k0 k P) (aligned : heapTop (k.sched.normalProcess pid).heapRange % 4096 = 0)
    (shape : c.alloc.shape = k0.alloc.shape) (trail : Trail True c k.sched R (buf.frames 16) k) (member : root ∈ R) :
    wp (allocateHeap mapper.toPageMapper growth (root * 4096) size buf)
      (fun out k' => ∃ ranges top, ranges = (k.sched.normalProcess pid).heapRange ∧ top = heapTop ranges ∧
        out.1 = (top : Int) ∧ size ≠ 0 ∧ k'.sched = withHeap k.sched pid (ranges ++ [nextRange ranges size]) ∧
        Heaped root k0 k' (P ∪ { page | page ∈ List.range' (top / 4096) (divCeil size pageSize) }) ∧
        Trail True c k'.sched R (out.2.frames 16) k')
      (fun _ k' => Heaped root k0 k' P ∧ Trail True c k.sched R (buf.frames 16) k') k := by
  have same : k.alloc.shape = k0.alloc.shape := trail.edits.shape.trans shape
  rw [← List.append_nil (buf.frames 16)] at trail
  refine (allocateHeap_call mapper growth size found aligned trail member).mono ?_ ?_
  · rintro out k' ⟨ranges, top, live, start, value, positive, sched, _, _, _, _, call, _, order, _⟩
    refine ⟨ranges, top, live, start, value, positive, sched, heaped.call call member same, ?_⟩
    have after := (call.trail.perm order).discard
    rw [List.append_nil] at after
    exact after
  · rintro _ k' ⟨lost, call⟩
    have after := call.trail.discard
    rw [List.append_nil] at after
    exact ⟨Set.union_empty P ▸ heaped.call call member same, after⟩

/-- A call of `deallocate` takes off the first range with the address and
unmaps its pages, and no other page of any process. -/
theorem deallocate_pages (addr : Nat) (found : findProcess k.sched (root * 4096) = some pid)
    (shaped : Shaped (k.sched.normalProcess pid).heapRange)
    (mapped : ∀ page ∈ heapPages (k.sched.normalProcess pid).heapRange,
      page < 2 ^ 35 ∧ translate k.mem root page ≠ none)
    (trail : Trail True c k.sched R pend k) (member : root ∈ R) :
    wp (deallocate mapper.toPageMapper (root * 4096) addr)
      (fun value k' => value = 0 ∧ ∃ before r after, (k.sched.normalProcess pid).heapRange = before ++ r :: after ∧
        HeapRange.contains r addr = true ∧ k'.sched = withHeap k.sched pid (before ++ after) ∧
        Trail True c k'.sched R pend k' ∧ ∀ q ∈ R, ∀ page, page < 2 ^ 35 → translate k'.mem q page =
          if q = root ∧ r.start ≤ page * 4096 ∧ page * 4096 < r.stop then none else translate k.mem q page)
      (fun e k' => e = -17 ∧ k' = k ∧ ∀ r ∈ (k.sched.normalProcess pid).heapRange, HeapRange.contains r addr = false) k := by
  refine wp_bind (wp_read ?_)
  rw [found]
  dsimp only
  rw [Nat.mul_div_cancel root (by decide)]
  split
  · rename_i missing
    exact wp_fail ⟨rfl, rfl, List.findIdx?_eq_none_iff.mp missing⟩
  · rename_i idx here
    generalize (k.sched.normalProcess pid).heapRange = ranges at *
    obtain ⟨inside, contains, _⟩ := List.findIdx?_eq_some_iff_getElem.mp here
    have aligned := shaped.aligned _ (List.getElem_mem inside)
    have split : ranges = ranges.take idx ++ ranges[idx] :: ranges.drop (idx + 1) := by
      rw [List.getElem_cons_drop, List.take_append_drop]
    rw [List.getD_eq_getElem _ _ inside, List.eraseIdx_eq_take_drop_succ]
    refine wp_bind ((shrinkHeap_pages mapper aligned.1 (fun page there => ?_) trail member).mono ?_ fun _ _ => False.elim)
    · exact mapped page ⟨_, List.getElem_mem inside, (mem_pages_iff aligned page).mp there⟩
    · rintro _ k1 ⟨trail1, pages⟩
      refine wp_bind (wp_write (wp_pure ⟨rfl, _, _, _, split, contains, rfl, trail1.resched, ?_⟩))
      intro q known page bound
      rw [pages q known page bound]
      exact if_congr (and_congr_right fun _ => mem_pages_iff aligned page) rfl rfl

/-- A call of `deallocate` on mapped ranges does not panic. -/
theorem deallocate_returns (mapper : PageMapper) (addr : Nat) (found : findProcess k.sched (root * 4096) = some pid)
    (shaped : Shaped (k.sched.normalProcess pid).heapRange)
    (low : ∀ page ∈ heapPages (k.sched.normalProcess pid).heapRange, page < 2 ^ 35) :
    ∃ out, deallocate mapper (root * 4096) addr k = some out := by
  unfold deallocate
  rw [read_bind, found]
  dsimp only
  generalize (k.sched.normalProcess pid).heapRange = ranges at *
  cases here : ranges.findIdx? (HeapRange.contains · addr) with
  | none => exact ⟨_, rfl⟩
  | some idx =>
    obtain ⟨inside, _⟩ := List.findIdx?_eq_some_iff_getElem.mp here
    have aligned := shaped.aligned _ (List.getElem_mem inside)
    have pages : ∀ j, 0 ≤ j → j < 0 + divCeil (ranges[idx].stop - ranges[idx].start) pageSize →
        (ranges[idx].start + j * 4096) / 4096 < 2 ^ 35 := by
      intro j _ upper
      refine low _ ⟨_, List.getElem_mem inside, (mem_pages_iff aligned _).mp (List.mem_range'_1.mpr ?_)⟩
      omega
    obtain ⟨k', run⟩ := shrinkHeap_returns mapper (root * 4096 / 4096) _ 0 pages k
    dsimp only
    rw [List.getD_eq_getElem _ _ inside, bind_ok run]
    exact ⟨_, rfl⟩

theorem deallocate_heaped (addr : Nat) (found : findProcess k.sched (root * 4096) = some pid)
    (shaped : Shaped (k.sched.normalProcess pid).heapRange)
    (heaped : Heaped root k0 k (heapPages (k.sched.normalProcess pid).heapRange))
    (trail : Trail True c k.sched R pend k) (member : root ∈ R) :
    wp (deallocate mapper.toPageMapper (root * 4096) addr)
      (fun _ k' => ∃ r rest, (k.sched.normalProcess pid).heapRange.Perm (r :: rest) ∧
        k'.sched = withHeap k.sched pid rest ∧ Heaped root k0 k' (heapPages rest) ∧ Trail True c k'.sched R pend k')
      (fun _ k' => k' = k) k := by
  refine (deallocate_pages mapper addr found shaped (fun page inside => ⟨heaped.low page inside, ?_⟩) trail member).mono ?_ ?_
  · obtain ⟨f, there, _⟩ := heaped.mapped page inside
    rw [there]
    exact Option.some_ne_none f
  · rintro _ k' ⟨_, before, r, after, live, _, sched, trail', pages⟩
    have perm : (k.sched.normalProcess pid).heapRange.Perm (r :: (before ++ after)) := live ▸ List.perm_middle
    have split := shaped.perm perm
    have aligned := (Shaped.cons_iff.mp split).1.2.1
    rw [heapPages_perm perm, heapPages_cons aligned] at heaped
    refine ⟨r, before ++ after, perm, sched, heaped.shrink split.pages_apart fun page bound => ?_, trail'⟩
    rw [pages root member page bound]
    exact if_congr ((and_iff_right rfl).trans (mem_pages_iff aligned page).symm) rfl rfl
  · rintro _ k' ⟨_, same, _⟩
    exact same

end Calls

end Kernel

/-- A new range at the top, with its pages. -/
theorem Shaped.push {ranges : List HeapRange} {size : Nat} (shaped : Shaped ranges) (positive : size ≠ 0) :
    Shaped (ranges ++ [Kernel.nextRange ranges size]) ∧ heapPages (ranges ++ [Kernel.nextRange ranges size]) =
      heapPages ranges ∪ { page | page ∈ List.range' (Kernel.heapTop ranges / 4096) (divCeil size pageSize) } := by
  obtain ⟨aligned, above, upper⟩ := heapTop_spec shaped
  have pages : 0 < divCeil size pageSize := by
    rw [divCeil_page]
    omega
  unfold Kernel.nextRange
  generalize divCeil size pageSize = n at *
  generalize Kernel.heapTop ranges = top at *
  have perm := List.perm_append_singleton (⟨top, top + 4096 * n⟩ : HeapRange) ranges
  have both : top % 4096 = 0 ∧ (top + 4096 * n) % 4096 = 0 := ⟨aligned, by omega⟩
  have count : divCeil (top + 4096 * n - top) pageSize = n := by
    rw [divCeil_page]
    omega
  refine ⟨Shaped.perm (Shaped.cons_iff.mpr ⟨⟨?_, both, above, fun r member => Or.inr (upper r member)⟩, shaped⟩) perm.symm, ?_⟩
  · show top < top + 4096 * n
    omega
  · rw [heapPages_perm perm, heapPages_cons both]
    show heapPages ranges ∪ { page | page ∈ List.range' (top / 4096) (divCeil (top + 4096 * n - top) pageSize) } = _
    rw [count]

namespace HeapState

/-- The heap of the process in slot `pid`. -/
def live (h : HeapState) (pid : Nat) : List HeapRange := (h.kernel.sched.normalProcess pid).heapRange

/-- What holds between the heap calls of a process, if it made no others since
`k0`. -/
structure Sound (k0 : Kernel) (R : Set Nat) (root pid : Nat) (h : HeapState) : Prop where
  found : Kernel.findProcess h.kernel.sched (root * 4096) = some pid
  shaped : Shaped (h.live pid)
  heaped : Heaped root k0 h.kernel (heapPages (h.live pid))
  trail : Trail True (k0.snapshot R []) h.kernel.sched R (h.ranges.frames 16) h.kernel

section
variable {k0 k : Kernel} {R : Set Nat} {root pid : Nat} {h h' : HeapState} (mapper : ExactMapper) (growth : VecGrowth)

theorem Sound.withHeap {ranges : List HeapRange} {buf : Buffer} (sound : h.Sound k0 R root pid)
    (sched : k.sched = Kernel.withHeap h.kernel.sched pid ranges) (shaped : Shaped ranges)
    (heaped : Heaped root k0 k (heapPages ranges)) (trail : Trail True (k0.snapshot R []) k.sched R (buf.frames 16) k) :
    Sound k0 R root pid ⟨k, buf⟩ ∧ live ⟨k, buf⟩ pid = ranges := by
  have same : live ⟨k, buf⟩ pid = ranges := by
    show (k.sched.normalProcess pid).heapRange = ranges
    rw [sched, Kernel.heapRange_withHeap]
  refine ⟨⟨?_, same.symm ▸ shaped, same.symm ▸ heaped, trail⟩, same⟩
  show Kernel.findProcess k.sched (root * 4096) = some pid
  rw [sched, Kernel.findProcess_withHeap]
  exact sound.found

theorem Sound.same_heap (sound : h.Sound k0 R root pid) (heaped : Heaped root k0 k (heapPages (h.live pid)))
    (trail : Trail True (k0.snapshot R []) h.kernel.sched R (h.ranges.frames 16) k) :
    Sound k0 R root pid { h with kernel := k } ∧ live { h with kernel := k } pid = h.live pid := by
  have sched : k.sched = h.kernel.sched := trail.stage.sched
  have same : live { h with kernel := k } pid = h.live pid := by
    show (k.sched.normalProcess pid).heapRange = _
    rw [sched]
    rfl
  refine ⟨⟨?_, same.symm ▸ sound.shaped, same.symm ▸ heaped, ?_⟩, same⟩
  · show Kernel.findProcess k.sched (root * 4096) = some pid
    rw [sched]
    exact sound.found
  · show Trail True _ k.sched R (h.ranges.frames 16) k
    rw [sched]
    exact trail

/-- The range that a successful `allocate` adds. -/
theorem Sound.allocate (sound : h.Sound k0 R root pid) (member : root ∈ R) (size : UInt64) :
    Prog.wp (Kernel.allocateHeap mapper.toPageMapper growth (root * 4096) size.toNat h.ranges)
      (fun out k => Sound k0 R root pid ⟨k, out.2⟩ ∧ out.1 = (Kernel.heapTop (h.live pid) : Int) ∧
        live ⟨k, out.2⟩ pid = h.live pid ++ [Kernel.nextRange (h.live pid) size.toNat])
      (fun _ k => Sound k0 R root pid { h with kernel := k } ∧ live { h with kernel := k } pid = h.live pid) h.kernel := by
  refine (Kernel.allocateHeap_heaped mapper growth size.toNat sound.found sound.heaped (heapTop_spec sound.shaped).1 rfl
    sound.trail member).mono ?_ ?_
  · rintro ⟨addr, buf⟩ k ⟨ranges, top, same, rfl, value, positive, sched, heaped, trail⟩
    cases (show ranges = h.live pid from same)
    obtain ⟨shaped, pages⟩ := sound.shaped.push positive
    rw [← pages] at heaped
    obtain ⟨sound', live⟩ := sound.withHeap sched shaped heaped trail
    exact ⟨sound', value, live⟩
  · rintro _ k ⟨heaped, trail⟩
    exact sound.same_heap heaped trail

theorem Sound.deallocate (sound : h.Sound k0 R root pid) (member : root ∈ R) (addr : Nat) :
    Prog.wp (Kernel.deallocate mapper.toPageMapper (root * 4096) addr)
      (fun _ k => Sound k0 R root pid { h with kernel := k }) (fun _ k => Sound k0 R root pid { h with kernel := k })
      h.kernel := by
  refine (Kernel.deallocate_heaped mapper addr sound.found sound.shaped sound.heaped sound.trail member).mono ?_ ?_
  · rintro _ k ⟨r, rest, perm, sched, heaped, trail⟩
    exact (sound.withHeap sched (Shaped.cons_iff.mp (sound.shaped.perm perm)).2 heaped trail).1
  · rintro _ k rfl
    exact sound

theorem allocate_cases {mapper : PageMapper} {table : Nat} {size : UInt64} {result : Except Int Int}
    (run : h.call mapper growth table (.allocate size) = some (result, h')) :
    (∃ addr, result = .ok addr ∧ Kernel.allocateHeap mapper growth table size.toNat h.ranges h.kernel =
      some (.ok (addr, h'.ranges), h'.kernel)) ∨
    ∃ e, result = .error e ∧ h'.ranges = h.ranges ∧
      Kernel.allocateHeap mapper growth table size.toNat h.ranges h.kernel = some (.error e, h'.kernel) := by
  simp only [HeapState.call] at run
  split at run
  · cases run
  · rename_i addr ranges k out
    cases run
    exact Or.inl ⟨addr, rfl, out⟩
  · rename_i e k out
    cases run
    exact Or.inr ⟨e, rfl, rfl, out⟩

theorem deallocate_cases {mapper : PageMapper} {table : Nat} {addr : UInt64} {result : Except Int Int}
    (run : h.call mapper growth table (.deallocate addr) = some (result, h')) :
    h'.ranges = h.ranges ∧ Kernel.deallocate mapper table addr.toNat h.kernel = some (result, h'.kernel) := by
  simp only [HeapState.call] at run
  split at run
  · cases run
  · rename_i result' k out
    cases run
    exact ⟨rfl, out⟩

theorem Sound.call {call : MemorySyscall} {result : Except Int Int} (sound : h.Sound k0 R root pid) (member : root ∈ R)
    (run : h.call mapper.toPageMapper growth (root * 4096) call = some (result, h')) : h'.Sound k0 R root pid := by
  cases call with
  | allocate size =>
    have post := sound.allocate mapper growth member size
    rcases allocate_cases growth run with ⟨addr, rfl, out⟩ | ⟨e, rfl, same, out⟩
    · exact (post.ok out).1
    · have kept := (post.error out).1
      rw [← same] at kept
      exact kept
  | deallocate addr =>
    have post := sound.deallocate mapper member addr.toNat
    obtain ⟨same, out⟩ := deallocate_cases growth run
    rw [← same] at post
    cases result with
    | ok value => exact post.ok out
    | error e => exact post.error out

/-- All calls keep the ranges and their pages in order. -/
theorem Sound.calls (sound : h.Sound k0 R root pid) (member : root ∈ R) (calls : List MemorySyscall)
    (run : h.calls mapper.toPageMapper growth (root * 4096) calls = some h') : h'.Sound k0 R root pid := by
  induction calls generalizing h with
  | nil => exact Option.some.inj run ▸ sound
  | cons first rest ih =>
    obtain ⟨⟨result, next⟩, one, more⟩ := Option.bind_eq_some_iff.mp run
    exact ih (sound.call mapper growth member one) more

end

end HeapState

end ProkaKernel
