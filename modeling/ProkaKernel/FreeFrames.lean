import Mathlib.Order.Interval.Finset.Nat
import ProkaKernel.Paging

namespace ProkaKernel

namespace FrameAlloc

/-- The frames that the allocator can still hand out. -/
def freeSet (a : FrameAlloc) : Finset Nat := (Finset.range a.maxPage).filter fun q => ¬Used a.bitmap q

def freeFrames (a : FrameAlloc) : Nat := a.freeSet.card

section
variable {a a' a'' : FrameAlloc} {n f : Nat}

theorem mem_freeSet {q : Nat} : q ∈ a.freeSet ↔ q < a.maxPage ∧ ¬Used a.bitmap q := by
  rw [freeSet, Finset.mem_filter, Finset.mem_range]

theorem freeFrames_allocate (run : a.allocateContiguous n = some (f, a')) : a.freeFrames = a'.freeFrames + n := by
  obtain ⟨_, bound, free, rfl⟩ := allocateContiguous_some run
  have split : a.freeSet = freeSet { a with bitmap := setRun a.bitmap f n 1, pos := a.pos + n } ∪ Finset.Ico f (f + n) := by
    ext q
    rw [Finset.mem_union, mem_freeSet, mem_freeSet, Finset.mem_Ico, setRun_one_used]
    constructor
    · rintro ⟨inside, unused⟩
      by_cases taken : f ≤ q ∧ q < f + n
      · exact Or.inr taken
      · exact Or.inl ⟨inside, fun either => either.elim unused taken⟩
    · rintro (⟨inside, unused⟩ | ⟨lower, upper⟩)
      · exact ⟨inside, fun used => unused (Or.inl used)⟩
      · exact ⟨by omega, free q lower upper⟩
  have apart : Disjoint (freeSet { a with bitmap := setRun a.bitmap f n 1, pos := a.pos + n }) (Finset.Ico f (f + n)) := by
    refine Finset.disjoint_left.mpr fun q free taken => ?_
    rw [mem_freeSet, setRun_one_used] at free
    exact free.2 (Or.inr (Finset.mem_Ico.mp taken))
  rw [freeFrames, split, Finset.card_union_of_disjoint apart, Nat.card_Ico, Nat.add_sub_cancel_left]
  rfl

/-- Single frames taken one after the other. -/
def takeFrames : Nat → FrameAlloc → Option FrameAlloc
  | 0, a => some a
  | n + 1, a => (a.allocateContiguous 1).bind fun out => takeFrames n out.2

theorem takeFrames_add (n n' : Nat) (a : FrameAlloc) : takeFrames (n + n') a = (takeFrames n a).bind (takeFrames n') := by
  induction n generalizing a with
  | zero => rw [Nat.zero_add, takeFrames, Option.bind_some]
  | succ n ih =>
    rw [Nat.succ_add, takeFrames, takeFrames]
    cases a.allocateContiguous 1 with
    | none => rfl
    | some out => exact ih out.2

theorem takeFrames_next (taken : takeFrames n a = some a') (run : a'.allocateContiguous 1 = some (f, a'')) :
    takeFrames (n + 1) a = some a'' := by
  rw [takeFrames_add, taken, Option.bind_some, takeFrames, run]
  rfl

theorem takeFrames_none {n' : Nat} (le : n ≤ n') (missing : takeFrames n a = none) : takeFrames n' a = none := by
  obtain ⟨more, rfl⟩ := Nat.exists_eq_add_of_le le
  rw [takeFrames_add, missing, Option.bind_none]

theorem freeFrames_take (taken : takeFrames n a = some a') : a.freeFrames = a'.freeFrames + n := by
  induction n generalizing a with
  | zero => exact congrArg freeFrames (Option.some.inj taken)
  | succ n ih =>
    obtain ⟨⟨f, a1⟩, run, rest⟩ := Option.bind_eq_some_iff.mp taken
    have first := freeFrames_allocate run
    have later : a1.freeFrames = a'.freeFrames + n := ih rest
    omega

/-- The allocator refuses single frames only when it has none. -/
theorem Guarded.refused_iff (guarded : Guarded a) : a.allocateContiguous 1 = none ↔ a.freeFrames = 0 := by
  rw [allocateContiguous_none_iff 1 (Nat.le_trans (Nat.le_add_right ..) guarded.pos), freeFrames, Finset.card_eq_zero,
    Finset.eq_empty_iff_forall_notMem, FreeRun, not_exists]
  constructor
  · intro full q free
    obtain ⟨inside, unused⟩ := mem_freeSet.mp free
    have above : a.reserved ≤ q := Nat.le_of_not_lt fun below => unused (guarded.marked q (by omega))
    refine full q ⟨above, inside, fun i lower upper => ?_⟩
    have same : i = q := by omega
    exact same ▸ unused
  · rintro empty q ⟨_, inside, free⟩
    exact empty q (mem_freeSet.mpr ⟨inside, free q (Nat.le_refl q) (Nat.lt_succ_self q)⟩)

theorem freeFrames_deallocate_le (a : FrameAlloc) (f n : Nat) :
    (a.deallocateContiguous f n).freeFrames ≤ a.freeFrames + n := by
  unfold deallocateContiguous
  split
  · exact Nat.le_add_right ..
  · have covered : freeSet { a with bitmap := setRun a.bitmap f n 0 } ⊆ a.freeSet ∪ Finset.Ico f (f + n) := by
      intro q free
      rw [mem_freeSet, setRun_zero_used] at free
      rw [Finset.mem_union, mem_freeSet, Finset.mem_Ico]
      by_cases given : f ≤ q ∧ q < f + n
      · exact Or.inr given
      · exact Or.inl ⟨free.1, fun used => free.2 ⟨used, Or.inl given⟩⟩
    have bound := (Finset.card_le_card covered).trans (Finset.card_union_le ..)
    rw [Nat.card_Ico, Nat.add_sub_cancel_left] at bound
    exact bound

/-- What no request to the allocator changes. -/
def shape (a : FrameAlloc) : Nat × Nat × Nat × Nat := (a.maxPage, a.reserved, a.selfUsedPage, a.bitmap.length)

theorem shape_allocate (run : a.allocateContiguous n = some (f, a')) : a'.shape = a.shape := by
  obtain ⟨_, _, _, rfl⟩ := allocateContiguous_some run
  rw [shape, setRun_length]
  rfl

theorem shape_deallocate (a : FrameAlloc) (f n : Nat) : (a.deallocateContiguous f n).shape = a.shape := by
  unfold deallocateContiguous
  split
  · rfl
  · rw [shape, setRun_length]
    rfl

/-- The bitmap has a bit for every page. -/
def Sized (a : FrameAlloc) : Prop := ∀ q, q < a.maxPage → q / 8 < a.bitmap.length

theorem Sized.of_shape (sized : a.Sized) (same : a'.shape = a.shape) : a'.Sized := by
  have pages : a'.maxPage = a.maxPage := congrArg Prod.fst same
  have length : a'.bitmap.length = a.bitmap.length := congrArg (fun s => s.2.2.2) same
  intro q inside
  rw [length]
  exact sized q (pages ▸ inside)

/-- The frames that the allocator may hand out. -/
def InStock (a : FrameAlloc) (f : Nat) : Prop := a.reserved + a.selfUsedPage ≤ f ∧ f < a.maxPage

theorem boundary_of_shape (same : a'.shape = a.shape) :
    a'.reserved + a'.selfUsedPage = a.reserved + a.selfUsedPage :=
  congrArg (fun s => s.2.1 + s.2.2.1) same

theorem InStock.of_shape (stock : a.InStock f) (same : a'.shape = a.shape) : a'.InStock f := by
  have pages : a'.maxPage = a.maxPage := congrArg Prod.fst same
  rw [InStock, boundary_of_shape same, pages]
  exact stock

theorem Guarded.inStock (guarded : Guarded a) (run : a.allocateContiguous n = some (f, a')) (positive : 0 < n) :
    a.InStock f := by
  obtain ⟨_, bound, free, _⟩ := allocateContiguous_some run
  have unused := free f (Nat.le_refl f) (by omega)
  exact ⟨Nat.le_of_not_lt fun below => unused (guarded.marked f below), by omega⟩

/-- Frames in use above the boundary become free. -/
theorem freeFrames_deallocate (sized : a.Sized) (above : a.reserved + a.selfUsedPage < f) (inside : f + n ≤ a.maxPage)
    (used : ∀ q, f ≤ q → q < f + n → Used a.bitmap q) : (a.deallocateContiguous f n).freeFrames = a.freeFrames + n := by
  rw [deallocateContiguous, if_neg (Nat.not_le.mpr above)]
  have split : freeSet { a with bitmap := setRun a.bitmap f n 0 } = a.freeSet ∪ Finset.Ico f (f + n) := by
    ext q
    rw [Finset.mem_union, mem_freeSet, mem_freeSet, Finset.mem_Ico, setRun_zero_used]
    change (q < a.maxPage ∧ _) ↔ _
    by_cases given : f ≤ q ∧ q < f + n
    · have bit := sized q (by omega)
      exact iff_of_true ⟨by omega, fun still => still.2.elim (fun outside => outside given)
        fun beyond => absurd bit (Nat.not_lt.mpr beyond)⟩ (Or.inr given)
    · rw [or_iff_left given]
      exact and_congr_right fun _ => not_congr (and_iff_left (Or.inl given))
  have apart : Disjoint a.freeSet (Finset.Ico f (f + n)) := by
    refine Finset.disjoint_left.mpr fun q free given => ?_
    obtain ⟨lower, upper⟩ := Finset.mem_Ico.mp given
    exact (mem_freeSet.mp free).2 (used q lower upper)
  rw [freeFrames, split, Finset.card_union_of_disjoint apart, Nat.card_Ico, Nat.add_sub_cancel_left]
  rfl

/-- A frame above the boundary that is given back is free. -/
theorem deallocate_unused (sized : a.Sized) (above : a.reserved + a.selfUsedPage < f) (inside : f < a.maxPage)
    (positive : 0 < n) : ¬Used (a.deallocateContiguous f n).bitmap f := by
  rw [deallocateContiguous, if_neg (Nat.not_le.mpr above)]
  intro used
  rcases ((setRun_zero_used ..).mp used).2 with outside | beyond
  · exact outside ⟨Nat.le_refl f, by omega⟩
  · exact absurd (sized f inside) (Nat.not_lt.mpr beyond)

theorem freeFrames_pos_deallocate (sized : a.Sized) (above : a.reserved + a.selfUsedPage < f) (inside : f < a.maxPage)
    (positive : 0 < n) : 0 < (a.deallocateContiguous f n).freeFrames := by
  have pages : (a.deallocateContiguous f n).maxPage = a.maxPage := congrArg Prod.fst (shape_deallocate a f n)
  exact Finset.card_pos.mpr ⟨f, mem_freeSet.mpr ⟨pages ▸ inside, deallocate_unused sized above inside positive⟩⟩

theorem pos_deallocate (a : FrameAlloc) (f n : Nat) : (a.deallocateContiguous f n).pos = a.pos := by
  unfold deallocateContiguous
  split <;> rfl

/-- All frames from the search position on are free. -/
def FreshAbove (a : FrameAlloc) : Prop := ∀ q, a.pos ≤ q → q < a.maxPage → ¬Used a.bitmap q

/-- The next `n` frames from the search position on are taken. -/
structure Stacks (n : Nat) (a a' : FrameAlloc) : Prop where
  fresh : a'.FreshAbove
  pos : a'.pos = a.pos + n
  shape : a'.shape = a.shape
  free : a.freeFrames = a'.freeFrames + n
  used : ∀ q, Used a'.bitmap q ↔ Used a.bitmap q ∨ a.pos ≤ q ∧ q < a.pos + n

theorem Stacks.trans {n' : Nat} (first : Stacks n a a') (second : Stacks n' a' a'') : Stacks (n + n') a a'' := by
  have pos1 := first.pos
  have pos2 := second.pos
  have free1 := first.free
  have free2 := second.free
  refine ⟨second.fresh, by omega, second.shape.trans first.shape, by omega, fun q => ?_⟩
  rw [second.used, first.used, or_assoc]
  refine or_congr_right ?_
  omega

theorem FreshAbove.allocate (fresh : a.FreshAbove) (room : a.pos + n ≤ a.maxPage) :
    ∃ a', a.allocateContiguous n = some (a.pos, a') ∧ Stacks n a a' := by
  have run := allocateContiguous_pos room fun q lower upper => fresh q lower (by omega)
  refine ⟨_, run, fun q lower inside used => ?_, rfl, shape_allocate run, freeFrames_allocate run, fun q => setRun_one_used ..⟩
  have above : a.pos + n ≤ q := lower
  rcases (setRun_one_used ..).mp used with old | new
  · exact fresh q (by omega) inside old
  · omega

theorem FreshAbove.take (fresh : a.FreshAbove) (room : a.pos + n ≤ a.maxPage) :
    ∃ a', takeFrames n a = some a' ∧ Stacks n a a' := by
  induction n generalizing a with
  | zero => exact ⟨a, rfl, fresh, rfl, rfl, rfl, fun q => (or_iff_left (by omega)).symm⟩
  | succ n ih =>
    obtain ⟨a1, run, first⟩ := fresh.allocate (n := 1) (by omega)
    have pages : a1.maxPage = a.maxPage := congrArg Prod.fst first.shape
    have pos := first.pos
    obtain ⟨a2, rest, later⟩ := ih first.fresh (by omega)
    refine ⟨a2, ?_, Nat.add_comm n 1 ▸ first.trans later⟩
    rw [takeFrames, run, Option.bind_some]
    exact rest

theorem deallocate_used {q : Nat} (used : Used (a.deallocateContiguous f n).bitmap q) : Used a.bitmap q := by
  unfold deallocateContiguous at used
  split at used
  · exact used
  · exact ((setRun_zero_used ..).mp used).1

theorem FreshAbove.deallocate (fresh : a.FreshAbove) (f n : Nat) : (a.deallocateContiguous f n).FreshAbove := by
  have pages : (a.deallocateContiguous f n).maxPage = a.maxPage := congrArg Prod.fst (shape_deallocate a f n)
  exact fun q lower inside used => fresh q (pos_deallocate a f n ▸ lower) (pages ▸ inside) (deallocate_used used)

end

end FrameAlloc

end ProkaKernel
