import ProkaKernel.Bystanders
import ProkaKernel.TablePath
import ProkaKernel.UserHeap

namespace ProkaKernel

/-- The frame has a place in the lower half below one level-4 table. -/
def PlacedBelow (m : Mem) (root f : Nat) : Prop := ∃ p, LowPath p ∧ tableWalk m root p = some f

/-- The tables below `root` grow: all walks are still there, and the frames
that were taken have a place. -/
structure Spreads (root : Nat) (m : Mem) (a : FrameAlloc) (m' : Mem) (a' : FrameAlloc) : Prop where
  walks : ∀ p f, LowPath p → tableWalk m root p = some f → tableWalk m' root p = some f
  listed : ∀ q, FrameAlloc.Used a'.bitmap q → FrameAlloc.Used a.bitmap q ∨ PlacedBelow m' root q

section
variable {root page frame flags f : Nat} {R pend : Set Nat} {m m' : Mem} {a a' : FrameAlloc}

theorem TableGrowth.spreads (growth : TableGrowth root m a m' a') (owns : Owns m a R pend) (member : root ∈ R) :
    Spreads root m a m' a' := by
  induction growth with
  | refl => exact ⟨fun _ _ _ => id, fun _ => Or.inl⟩
  | @link m' a' a'' p i t f e before low _ reached free run entry bound ih =>
    have grown := before.grown owns member
    have hands := grown.owns.guarded.hands run
    have unplaced : ¬Forest.Placed pteFrame LowPath m'.entry R f := fun placed =>
      hands.fresh f (Nat.le_refl f) (Nat.lt_succ_self f) (grown.owns.spaces.placed f placed).1
    have attach := link_attach member low reached free unplaced entry bound
    have walks {q : List (Fin 512)} (lowQ : LowPath q) (y : Nat) :=
      grown.owns.spaces.walk_attach lowPath_closed attach unplaced member lowQ y
    refine ⟨fun q y lowQ old => (walks lowQ y).mpr (Or.inl (ih.walks q y lowQ old)), fun q used => ?_⟩
    rcases (hands.used q).mp used with old | ⟨lower, upper⟩
    · refine (ih.listed q old).imp_right ?_
      rintro ⟨p', low', there⟩
      exact ⟨p', low', (walks low' q).mpr (Or.inl there)⟩
    · have same : q = f := by omega
      exact Or.inr ⟨p ++ [i], low, (walks low q).mpr (Or.inr ⟨rfl, rfl, same⟩)⟩
  | @widen m' a' p i t e before low _ reached _ _ same bound ih =>
    have walks (q : List (Fin 512)) : tableWalk (m'.setEntry t i e) root q = tableWalk m' root q :=
      Forest.walk_congr fun _ j _ u _ _ => entry_widen same bound u j
    refine ⟨fun q y lowQ old => (walks q).trans (ih.walks q y lowQ old), fun q used => (ih.listed q used).imp_right ?_⟩
    rintro ⟨p', low', there⟩
    exact ⟨p', low', (walks p').trans there⟩

theorem PageMapper.mapTo_spreads (mapper : PageMapper) (owns : Owns m a R pend) (member : root ∈ R)
    (bound : page < 2 ^ 35) (ok : PageFlags.Ok flags) (pending : frame ∈ pend)
    (run : mapper.mapTo m a root page frame flags = (true, m', a')) : Spreads root m a m' a' := by
  obtain ⟨middle, p, i, t, growth, last, free, inRam, rfl⟩ := mapper.mapTo_ok (owns.single member) bound ok run
  have grown := growth.grown owns member
  have spreads := growth.spreads owns member
  have attach := last.attach member bound ok free inRam
  have unplaced := (grown.owns.spaces.pending frame pending).2
  have walks {q : List (Fin 512)} (lowQ : LowPath q) (y : Nat) :=
    grown.owns.spaces.walk_attach lowPath_closed attach unplaced member lowQ y
  refine ⟨fun q y lowQ old => (walks lowQ y).mpr (Or.inl (spreads.walks q y lowQ old)), fun q used => ?_⟩
  refine (spreads.listed q used).imp_right ?_
  rintro ⟨p', low', there⟩
  exact ⟨p', low', (walks low' q).mpr (Or.inl there)⟩

theorem PageMapper.unmap_placed (mapper : PageMapper) (owns : Owns m a R pend) (member : root ∈ R)
    (bound : page < 2 ^ 35) (run : mapper.unmap m root page = (some frame, m')) {q : Nat}
    (below : PlacedBelow m root q) : q = frame ∨ PlacedBelow m' root q := by
  obtain ⟨p, i, t, last, entry, rfl⟩ := mapper.unmap_ok bound run
  obtain ⟨detach, _⟩ := owns.clear_lower member (last.low bound) last.reached entry fun j deep => absurd deep (last.leaf j)
  obtain ⟨p', low', there⟩ := below
  by_cases here : p' = p ++ [i]
  · subst here
    rw [tableWalk, Forest.walk_through last.reached, entry] at there
    exact Or.inl (Option.some.inj there).symm
  · refine Or.inr ⟨p', low', (owns.spaces.walk_detach lowPath_closed detach member low' q).mpr ⟨there, ?_⟩⟩
    exact fun same => here same.2

end

namespace FrameAlloc

/-- Only frames with a bit can be free. -/
theorem unused_inside {bitmap : List UInt8} {q : Nat} (unused : ¬Used bitmap q) : q / 8 < bitmap.length := by
  by_contra beyond
  refine unused ?_
  unfold Used getBit
  rw [if_pos (Nat.le_of_not_lt beyond)]

/-- The frames of a run that are not given back with it. -/
def lostRun (a : FrameAlloc) (f n : Nat) : List Nat :=
  if a.reserved + a.selfUsedPage < f then [] else List.range' f n

theorem lostRun_of_shape {a a' : FrameAlloc} (same : a'.shape = a.shape) (f n : Nat) : a'.lostRun f n = a.lostRun f n := by
  unfold lostRun
  rw [boundary_of_shape same]

end FrameAlloc

/-- Inside a heap call that began in `k0`, below the level-4 table `root`. The
pages `P` were mapped to frames that were free before, and no other page of any
address space has changed. Every frame in use was in use before, or it is one of
`pend`, which the call took and which have no place, or it has a place below
`root`; and of the frames that were in use before, only those of `gone` were
given back. The frames of `rest` are held over the call. -/
structure InCall (c : Snapshot) (s : Sched) (k0 : Kernel) (R : Set Nat) (root : Nat) (gone : Set Nat)
    (pend rest : List Nat) (P : Set Nat) (k : Kernel) : Prop where
  trail : Trail True c s R (pend ++ rest) k
  shape : k.alloc.shape = k0.alloc.shape
  low : ∀ page ∈ P, page < 2 ^ 35
  free : ∀ page ∈ P, translate k0.mem root page = none
  kept : ∀ r ∈ R, ∀ page, page < 2 ^ 35 → ¬(r = root ∧ page ∈ P) → translate k.mem r page = translate k0.mem r page
  mapped : ∀ page ∈ P, ∃ f, translate k.mem root page = some f ∧ k0.alloc.InStock f ∧ ¬FrameAlloc.Used k0.alloc.bitmap f
  listed : ∀ q, FrameAlloc.Used k.alloc.bitmap q →
    FrameAlloc.Used k0.alloc.bitmap q ∨ q ∈ pend ∨ PlacedBelow k.mem root q
  retained : ∀ q, FrameAlloc.Used k0.alloc.bitmap q → q ∉ gone → FrameAlloc.Used k.alloc.bitmap q
  new : ∀ f ∈ pend, FrameAlloc.Used k0.alloc.bitmap f → f ∈ gone

section
variable {c : Snapshot} {s s' : Sched} {k0 k : Kernel} {R : Set Nat} {root page f n flags : Nat} {gone : Set Nat}
  {pend pend' rest rest' : List Nat} {P : Set Nat} {m : Mem} {a : FrameAlloc} {mapper : PageMapper}

theorem InCall.start (trail : Trail True c s R rest k) : InCall c s k R root ∅ [] rest ∅ k where
  trail := trail
  shape := rfl
  low _ none := none.elim
  free _ none := none.elim
  kept _ _ _ _ _ := rfl
  mapped _ none := none.elim
  listed _ := Or.inl
  retained _ used _ := used
  new _ none := absurd none List.not_mem_nil

theorem InCall.resched (call : InCall c s k0 R root gone pend rest P k) :
    InCall c s' k0 R root gone pend rest P { k with sched := s' } :=
  { call with trail := call.trail.resched }

theorem InCall.perm (call : InCall c s k0 R root gone pend rest P k) (perm : pend.Perm pend') :
    InCall c s k0 R root gone pend' rest P k :=
  { call with
    trail := call.trail.perm (perm.append_right rest)
    listed := fun q used => (call.listed q used).imp_right (Or.imp_left perm.mem_iff.mp)
    new := fun g member => call.new g (perm.mem_iff.mpr member) }

theorem InCall.fresh (call : InCall c s k0 R root ∅ pend rest P k) (member : f ∈ pend) :
    ¬FrameAlloc.Used k0.alloc.bitmap f :=
  fun used => call.new f member used

theorem InCall.boundary (call : InCall c s k0 R root gone pend rest P k) :
    k.alloc.reserved + k.alloc.selfUsedPage = k0.alloc.reserved + k0.alloc.selfUsedPage :=
  FrameAlloc.boundary_of_shape call.shape

theorem InCall.take (call : InCall c s k0 R root ∅ pend rest P k) (run : k.alloc.allocateContiguous n = some (f, a)) :
    InCall c s k0 R root ∅ (List.range' f n ++ pend) rest P { k with alloc := a } := by
  have hands := call.trail.stage.owns.guarded.hands run
  have trail := call.trail.allocate run
  rw [← List.append_assoc] at trail
  refine ⟨trail, (FrameAlloc.shape_allocate run).trans call.shape, call.low, call.free, call.kept, call.mapped, ?_, ?_, ?_⟩
  · intro q used
    rcases (hands.used q).mp used with old | new
    · exact (call.listed q old).imp_right (Or.imp_left (List.mem_append_right _))
    · exact Or.inr (Or.inl (List.mem_append_left _ (List.mem_range'_1.mpr new)))
  · exact fun q used kept => (hands.used q).mpr (Or.inl (call.retained q used kept))
  · intro g member used
    rcases List.mem_append.mp member with new | old
    · obtain ⟨lower, upper⟩ := List.mem_range'_1.mp new
      exact absurd (call.retained g used id) (hands.fresh g lower upper)
    · exact call.new g old used

/-- Frames of this call are given back; a run from the boundary on is not. -/
theorem InCall.give (call : InCall c s k0 R root gone (List.range' f n ++ pend) rest P k) :
    InCall c s k0 R root gone (k0.alloc.lostRun f n ++ pend) rest P
      { k with alloc := k.alloc.deallocateContiguous f n } := by
  unfold FrameAlloc.lostRun
  rw [← call.boundary]
  split
  · rename_i above
    have trail := call.trail
    rw [List.append_assoc] at trail
    have after : k.alloc.deallocateContiguous f n = { k.alloc with bitmap := FrameAlloc.setRun k.alloc.bitmap f n 0 } :=
      if_neg (Nat.not_le.mpr above)
    have length : k.alloc.bitmap.length = k0.alloc.bitmap.length := congrArg (fun s => s.2.2.2) call.shape
    refine ⟨trail.releaseRun, (FrameAlloc.shape_deallocate ..).trans call.shape, call.low, call.free, call.kept,
      call.mapped, ?_, ?_, ?_⟩
    · intro q used
      rw [after, FrameAlloc.setRun_zero_used] at used
      by_cases before : FrameAlloc.Used k0.alloc.bitmap q
      · exact Or.inl before
      · have inside := FrameAlloc.unused_inside before
        have outside := used.2.resolve_right (by omega)
        refine (call.listed q used.1).imp_right (Or.imp_left fun member => ?_)
        exact (List.mem_append.mp member).resolve_left fun run => outside (List.mem_range'_1.mp run)
    · intro q used kept
      rw [after, FrameAlloc.setRun_zero_used]
      refine ⟨call.retained q used kept, Or.inl fun run => kept ?_⟩
      exact call.new q (List.mem_append_left _ (List.mem_range'_1.mpr run)) used
    · exact fun g member => call.new g (List.mem_append_right _ member)
  · rename_i below
    have same : k.alloc.deallocateContiguous f n = k.alloc := if_pos (Nat.le_of_not_lt below)
    rw [same]
    exact call

theorem InCall.map (call : InCall c s k0 R root ∅ (f :: pend) rest P k) (member : root ∈ R) (bound : page < 2 ^ 35)
    (leaf : LeafFlags flags) (stock : k0.alloc.InStock f)
    (run : mapper.mapTo k.mem k.alloc root page f flags = (true, m, a)) :
    page ∉ P ∧ InCall c s k0 R root ∅ pend rest (insert page P) { k with mem := m, alloc := a } := by
  obtain ⟨mapped, trail⟩ := call.trail.mapTo member bound leaf run
  have spreads := mapper.mapTo_spreads call.trail.stage.owns member bound leaf.ok (List.mem_cons_self ..) run
  have fresh : page ∉ P := by
    intro old
    obtain ⟨g, there, _⟩ := call.mapped page old
    rw [mapped.free] at there
    cases there
  have here : translate m root page = some f := (mapped.pages root page f member bound).mpr (Or.inr ⟨rfl, rfl, rfl⟩)
  have others {r page' : Nat} (member' : r ∈ R) (bound' : page' < 2 ^ 35) (other : ¬(r = root ∧ page' = page)) :
      translate m r page' = translate k.mem r page' := by
    refine Option.ext fun y => (mapped.pages r page' y member' bound').trans (or_iff_left ?_)
    exact fun new => other ⟨new.1, new.2.1⟩
  refine ⟨fresh, trail, trail.edits.shape.trans (call.trail.edits.shape.symm.trans call.shape), ?_, ?_, ?_, ?_, ?_, ?_, ?_⟩
  · rintro page' (rfl | old)
    · exact bound
    · exact call.low page' old
  · rintro page' (rfl | old)
    · exact (call.kept root member page' bound fun both => fresh both.2).symm.trans mapped.free
    · exact call.free page' old
  · intro r member' page' bound' outside
    rw [others member' bound' fun both => outside ⟨both.1, Or.inl both.2⟩]
    exact call.kept r member' page' bound' fun both => outside ⟨both.1, Or.inr both.2⟩
  · rintro page' (rfl | old)
    · exact ⟨f, here, stock, call.fresh (List.mem_cons_self ..)⟩
    · have other : ¬(root = root ∧ page' = page) := fun both => fresh (both.2 ▸ old)
      rw [others member (call.low page' old) other]
      exact call.mapped page' old
  · intro q used
    rcases spreads.listed q used with old | below
    · rcases call.listed q old with before | listed | ⟨p, low, there⟩
      · exact Or.inl before
      · rcases List.mem_cons.mp listed with rfl | later
        · exact Or.inr (Or.inr ⟨pagePath page, pagePath_low bound, here⟩)
        · exact Or.inr (Or.inl later)
      · exact Or.inr (Or.inr ⟨p, low, spreads.walks p q low there⟩)
    · exact Or.inr (Or.inr below)
  · exact fun q used kept => mapped.used q (call.retained q used kept)
  · exact fun g later => call.new g (List.mem_cons_of_mem f later)

theorem InCall.refused (call : InCall c s k0 R root gone pend rest P k) (member : root ∈ R) (bound : page < 2 ^ 35)
    (ok : PageFlags.Ok flags) (run : mapper.mapTo k.mem k.alloc root page f flags = (false, m, a)) :
    InCall c s k0 R root gone pend rest P { k with mem := m, alloc := a } := by
  have growth := mapper.mapTo_err (call.trail.stage.owns.single member) bound ok run
  have grown := growth.grown call.trail.stage.owns member
  have spreads := growth.spreads call.trail.stage.owns member
  have leaves {r page' : Nat} (member' : r ∈ R) (bound' : page' < 2 ^ 35) :
      translate m r page' = translate k.mem r page' := grown.leaves r _ member' (pagePath_low bound') rfl
  refine ⟨call.trail.mapTo_refused member bound ok run, growth.shape.trans call.shape, call.low, call.free, ?_, ?_, ?_, ?_,
    call.new⟩
  · exact fun r member' page' bound' outside => (leaves member' bound').trans (call.kept r member' page' bound' outside)
  · intro page' old
    rw [leaves member (call.low page' old)]
    exact call.mapped page' old
  · intro q used
    rcases spreads.listed q used with old | below
    · refine (call.listed q old).imp_right (Or.imp_right ?_)
      rintro ⟨p, low, there⟩
      exact ⟨p, low, spreads.walks p q low there⟩
    · exact Or.inr (Or.inr below)
  · exact fun q used kept => grown.used q (call.retained q used kept)

theorem InCall.unmap (call : InCall c s k0 R root gone pend rest P k) (member : root ∈ R) (inside : page ∈ P)
    (run : mapper.unmap k.mem root page = (some f, m)) :
    InCall c s k0 R root gone (f :: pend) rest (P \ {page}) { k with mem := m } := by
  have bound := call.low page inside
  have unmapped := mapper.unmap_unmapped call.trail.stage.owns member bound run
  have others {r page' : Nat} (member' : r ∈ R) (bound' : page' < 2 ^ 35) (other : ¬(r = root ∧ page' = page)) :
      translate m r page' = translate k.mem r page' :=
    Option.ext fun y => (unmapped.pages r page' y member' bound').trans (and_iff_left other)
  refine ⟨call.trail.unmap member bound run, call.shape, fun page' old => call.low page' old.1,
    fun page' old => call.free page' old.1, ?_, ?_, ?_, call.retained, ?_⟩
  · intro r member' page' bound' outside
    by_cases here : r = root ∧ page' = page
    · obtain ⟨rfl, rfl⟩ := here
      rw [call.free page' inside]
      refine Option.eq_none_iff_forall_ne_some.mpr fun y there => ?_
      exact ((unmapped.pages r page' y member' bound').mp there).2 ⟨rfl, rfl⟩
    · refine (others member' bound' here).trans (call.kept r member' page' bound' fun both => ?_)
      exact outside ⟨both.1, both.2, fun same => here ⟨both.1, same⟩⟩
  · intro page' old
    rw [others member (call.low page' old.1) fun both => old.2 both.2]
    exact call.mapped page' old.1
  · intro q used
    rcases call.listed q used with before | listed | below
    · exact Or.inl before
    · exact Or.inr (Or.inl (List.mem_cons_of_mem f listed))
    · rcases mapper.unmap_placed call.trail.stage.owns member bound run below with rfl | still
      · exact Or.inr (Or.inl (List.mem_cons_self ..))
      · exact Or.inr (Or.inr still)
  · intro g listed used
    rcases List.mem_cons.mp listed with rfl | later
    · obtain ⟨f', there, _, unused⟩ := call.mapped page inside
      cases Option.some.inj (unmapped.was.symm.trans there)
      exact absurd used unused
    · exact call.new g later used

end

/-- The frames of a buffer that are not given back with it. -/
def Buffer.lost (buf : Buffer) (a : FrameAlloc) (size : Nat) : List Nat :=
  a.lostRun (buf.ptr / 4096) (divCeil (buf.cap * size) pageSize)

section
variable {c : Snapshot} {s : Sched} {k0 k : Kernel} {R : Set Nat} {root f n : Nat} {gone : Set Nat}
  {pend rest : List Nat} {P : Set Nat}

theorem FrameAlloc.lostRun_nil_iff {a : FrameAlloc} (lower : a.reserved + a.selfUsedPage ≤ f) (positive : 0 < n) :
    a.lostRun f n = [] ↔ f ≠ a.reserved + a.selfUsedPage := by
  unfold lostRun
  split
  · rename_i above
    exact iff_of_true rfl (by omega)
  · rename_i below
    rw [List.range'_eq_nil_iff]
    omega

/-- A run of this call starts at or above the boundary. -/
theorem InCall.lower (call : InCall c s k0 R root gone (List.range' f n ++ pend) rest P k) (positive : 0 < n) :
    k0.alloc.reserved + k0.alloc.selfUsedPage ≤ f := by
  rw [← call.boundary]
  refine (call.trail.stage.owns.spaces.pending f ?_).1.2
  exact List.mem_append_left _ (List.mem_append_left _ (List.mem_range'_1.mpr ⟨Nat.le_refl f, by omega⟩))

/-- Frames are lost only to the boundary, if it was free. -/
theorem InCall.lost (call : InCall c s k0 R root ∅ (List.range' f n ++ pend) rest P k) :
    k0.alloc.lostRun f n = [] ∨ ¬FrameAlloc.Used k0.alloc.bitmap (k0.alloc.reserved + k0.alloc.selfUsedPage) := by
  by_cases none : n = 0
  · left
    subst none
    unfold FrameAlloc.lostRun
    split <;> rfl
  · have positive : 0 < n := by omega
    by_cases boundary : f = k0.alloc.reserved + k0.alloc.selfUsedPage
    · right
      rw [← boundary]
      exact call.fresh (List.mem_append_left _ (List.mem_range'_1.mpr ⟨Nat.le_refl f, by omega⟩))
    · exact Or.inl ((FrameAlloc.lostRun_nil_iff (call.lower positive) positive).mpr boundary)

end

/-- A page-table frame of the address space below `root`. -/
def TableOf (m : Mem) (root q : Nat) : Prop := ∃ p, LowPath p ∧ p.length ≤ 3 ∧ tableWalk m root p = some q

/-- Paths of full length are those of pages. -/
theorem LowPath.page {p : List (Fin 512)} (low : LowPath p) (full : p.length = 4) :
    ∃ page, page < 2 ^ 35 ∧ p = pagePath page := by
  match p, full with
  | [a, b, c, d], _ =>
    have first := low.2 a rfl
    refine ⟨a.val * 512 ^ 3 + b.val * 512 ^ 2 + c.val * 512 + d.val, by omega, ?_⟩
    simp only [pagePath, List.cons.injEq, and_true, Fin.ext_iff, Fin.val_ofNat]
    omega

/-- When all pages are unmapped again, what was taken is a table or was not
given back. -/
theorem InCall.tables {c : Snapshot} {s : Sched} {k0 k : Kernel} {R : Set Nat} {root q : Nat} {gone : Set Nat}
    {pend rest : List Nat} (call : InCall c s k0 R root gone pend rest ∅ k) (owns : Owns k0.mem k0.alloc R ∅)
    (member : root ∈ R) (used : FrameAlloc.Used k.alloc.bitmap q) :
    FrameAlloc.Used k0.alloc.bitmap q ∨ q ∈ pend ∨ TableOf k.mem root q := by
  rcases call.listed q used with before | listed | ⟨p, low, there⟩
  · exact Or.inl before
  · exact Or.inr (Or.inl listed)
  · by_cases short : p.length ≤ 3
    · exact Or.inr (Or.inr ⟨p, low, short, there⟩)
    · have full : p.length = 4 := Nat.le_antisymm low.1 (Nat.lt_of_not_le short)
      obtain ⟨page, bound, rfl⟩ := low.page full
      have old := (call.kept root member page bound fun both => both.2).symm.trans there
      exact Or.inl (owns.spaces.placed q ⟨root, _, member, low, old⟩).1

/-- Frames that were held over the call are given back, or they stay because of
the boundary. -/
theorem InCall.giveHeld {c : Snapshot} {s : Sched} {k0 k : Kernel} {R : Set Nat} {root f n : Nat} {pend held : List Nat}
    {P : Set Nat} (call : InCall c s k0 R root ∅ pend (List.range' f n ++ held) P k) :
    ∃ gone extra, InCall c s k0 R root gone pend (extra ++ held) P
      { k with alloc := k.alloc.deallocateContiguous f n } ∧ ∀ q ∈ gone, q ∈ List.range' f n := by
  by_cases above : k.alloc.reserved + k.alloc.selfUsedPage < f
  · have after : k.alloc.deallocateContiguous f n = { k.alloc with bitmap := FrameAlloc.setRun k.alloc.bitmap f n 0 } :=
      if_neg (Nat.not_le.mpr above)
    have trail := (call.trail.perm (List.perm_append_comm_assoc ..)).releaseRun
    refine ⟨{ q | q ∈ List.range' f n }, [], ⟨trail, (FrameAlloc.shape_deallocate ..).trans call.shape, call.low, call.free,
      call.kept, call.mapped, ?_, ?_, fun g member used => (call.new g member used).elim⟩, fun _ => id⟩
    · intro q used
      rw [after, FrameAlloc.setRun_zero_used] at used
      exact call.listed q used.1
    · intro q used kept
      rw [after, FrameAlloc.setRun_zero_used]
      exact ⟨call.retained q used id, Or.inl fun run => kept (List.mem_range'_1.mpr run)⟩
  · have same : k.alloc.deallocateContiguous f n = k.alloc := if_pos (Nat.le_of_not_lt above)
    rw [same]
    exact ⟨∅, _, call, fun _ none => none.elim⟩

end ProkaKernel
