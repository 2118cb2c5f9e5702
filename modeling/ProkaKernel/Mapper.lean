import ProkaKernel.Paging

namespace ProkaKernel

/-- How tables grow on the way to a page: a free entry is linked to a blank
table in a frame from the allocator, or the present, writable and user bits of
a used entry are set anew. -/
inductive TableGrowth (root : Nat) (m : Mem) (a : FrameAlloc) : Mem → FrameAlloc → Prop
  | refl : TableGrowth root m a m a
  | link {m' a' a'' p i t f e} : TableGrowth root m a m' a' → LowPath (p ++ [i]) → p.length ≤ 2 →
      tableWalk m' root p = some t → m'.entry t i = 0 → a'.allocateContiguous 1 = some (f, a'') →
      pteFrame e = some f → e < 2 ^ 64 → TableGrowth root m a ((m'.zeroFrame f).setEntry t i e) a''
  | widen {m' a' p i t e} : TableGrowth root m a m' a' → LowPath (p ++ [i]) → p.length ≤ 2 →
      tableWalk m' root p = some t → m'.entry t i ≠ 0 → e / 8 = m'.entry t i / 8 →
      pteFrame e = pteFrame (m'.entry t i) → e < 2 ^ 64 → TableGrowth root m a (m'.setEntry t i e) a'

/-- How tables are cleaned up, in both halves of the address space: an empty
table is taken off its parent, and its frame is given back. -/
inductive TableTrim (root : Nat) (m : Mem) (a : FrameAlloc) : Mem → FrameAlloc → Prop
  | refl : TableTrim root m a m a
  | prune {m' a' p i t f} : TableTrim root m a m' a' → p.length ≤ 2 → tableWalk m' root p = some t →
      pteFrame (m'.entry t i) = some f → (∀ j, m'.entry f j = 0) →
      TableTrim root m a (m'.setEntry t i 0) (a'.deallocateContiguous f 1)

theorem TableTrim.trans {root : Nat} {m m' m'' : Mem} {a a' a'' : FrameAlloc} (first : TableTrim root m a m' a')
    (second : TableTrim root m' a' m'' a'') : TableTrim root m a m'' a'' := by
  induction second with
  | refl => exact first
  | prune _ short reached entry blank ih => exact ih.prune short reached entry blank

/-- The last entry on the way to a page. -/
structure LastEntry (m : Mem) (root page : Nat) (p : List (Fin 512)) (i : Fin 512) (t : Nat) : Prop where
  path : pagePath page = p ++ [i]
  reached : tableWalk m root p = some t

/-- `MappedPageTable` of the page-table crate, with its documented behaviour on
an address space that owns its frames: `map_to` takes table frames from the
passed allocator and refuses a mapped page, `unmap` returns the mapped frame,
and `clean_up` frees only tables that are empty. -/
structure PageMapper where
  mapTo : Mem → FrameAlloc → (root page frame flags : Nat) → Bool × Mem × FrameAlloc
  unmap : Mem → (root page : Nat) → Option Nat × Mem
  cleanUp : Mem → FrameAlloc → (root : Nat) → Mem × FrameAlloc
  mapTo_ok : ∀ {m a root page frame flags m' a'}, Owns m a {root} ∅ → page < 2 ^ 35 →
    PageFlags.Ok flags → mapTo m a root page frame flags = (true, m', a') →
    ∃ middle p i t, TableGrowth root m a middle a' ∧ LastEntry middle root page p i t ∧
      middle.entry t i = 0 ∧ frame < 2 ^ 40 ∧ m' = middle.setEntry t i (pte frame flags)
  mapTo_err : ∀ {m a root page frame flags m' a'}, Owns m a {root} ∅ → page < 2 ^ 35 →
    PageFlags.Ok flags → mapTo m a root page frame flags = (false, m', a') → TableGrowth root m a m' a'
  unmap_ok : ∀ {m root page frame m'}, page < 2 ^ 35 → unmap m root page = (some frame, m') →
    ∃ p i t, LastEntry m root page p i t ∧ pteFrame (m.entry t i) = some frame ∧ m' = m.setEntry t i 0
  unmap_err : ∀ {m root page m'}, page < 2 ^ 35 → unmap m root page = (none, m') → m' = m
  cleanUp_trims : ∀ {m a root m' a'}, Owns m a {root} ∅ → cleanUp m a root = (m', a') →
    TableTrim root m a m' a'

/-- What growing tables of one root keeps. -/
structure Grown (root : Nat) (R pend : Set Nat) (m : Mem) (a : FrameAlloc) (m' : Mem) (a' : FrameAlloc) : Prop where
  owns : Owns m' a' R pend
  reserved : a'.reserved = a.reserved
  used : ∀ q, FrameAlloc.Used a.bitmap q → FrameAlloc.Used a'.bitmap q
  leaves : ∀ r p, r ∈ R → LowPath p → p.length = 4 → tableWalk m' r p = tableWalk m r p
  back : ∀ r p f, r ∈ R → LowPath p → tableWalk m' r p = some f → FrameAlloc.Used a.bitmap f →
    tableWalk m r p = some f
  bytes : ∀ g, FrameAlloc.Used a.bitmap g → (∀ p, LowPath p → p.length ≤ 3 → tableWalk m root p ≠ some g) →
    ∀ x, x / 4096 = g → m' x = m x

theorem Grown.refl {root : Nat} {R pend : Set Nat} {m : Mem} {a : FrameAlloc} (owns : Owns m a R pend) :
    Grown root R pend m a m a where
  owns := owns
  reserved := rfl
  used _ := id
  leaves _ _ _ _ _ := rfl
  back _ _ _ _ _ reached _ := reached
  bytes _ _ _ _ _ := rfl

section
variable {root : Nat} {R pend pend' : Set Nat} {m m' : Mem} {a a' a'' : FrameAlloc} {p : List (Fin 512)} {i : Fin 512}
  {t f e : Nat}

/-- A frame in use that was no table of the root is not the table `t` either. -/
theorem Grown.not_table (grown : Grown root R pend m a m' a') (member : root ∈ R) (low : LowPath (p ++ [i]))
    (reached : tableWalk m' root p = some t) {g : Nat} (used : FrameAlloc.Used a.bitmap g)
    (notTable : ∀ p, LowPath p → p.length ≤ 3 → tableWalk m root p ≠ some g) : g ≠ t := by
  rintro rfl
  have length := low.1
  rw [List.length_append, List.length_singleton] at length
  have lowP : LowPath p := lowPath_closed p [i] low
  exact notTable p lowP (by omega) (grown.back root p g member lowP reached used)

/-- The link of a blank table is an attachment of a frame without a place. -/
theorem link_attach (member : root ∈ R) (low : LowPath (p ++ [i])) (reached : tableWalk m root p = some t)
    (free : m.entry t i = 0) (unplaced : ¬Forest.Placed pteFrame LowPath m.entry R f)
    (entry : pteFrame e = some f) (bound : e < 2 ^ 64) :
    Forest.Attach pteFrame LowPath m.entry ((m.zeroFrame f).setEntry t i e).entry R root p i t f := by
  have apart : f ≠ t := fun same => unplaced ⟨root, p, member, lowPath_closed p [i] low, same ▸ reached⟩
  refine ⟨member, low, reached, by rw [free, pteFrame_zero], ?_, fun j _ => ?_, fun u j new other => ?_⟩
  · rw [Mem.entry_setEntry_self _ _ _ bound, entry]
  · rw [Mem.entry_setEntry_of_ne _ _ (fun both => apart both.1), Mem.entry_zeroFrame_self, pteFrame_zero]
  · rw [Mem.entry_setEntry_of_ne _ _ other, Mem.entry_zeroFrame_of_ne _ new]

theorem Grown.link (grown : Grown root R pend m a m' a') (member : root ∈ R) (low : LowPath (p ++ [i]))
    (short : p.length ≤ 2) (reached : tableWalk m' root p = some t) (free : m'.entry t i = 0)
    (run : a'.allocateContiguous 1 = some (f, a'')) (entry : pteFrame e = some f) (bound : e < 2 ^ 64) :
    Grown root R pend m a ((m'.zeroFrame f).setEntry t i e) a'' := by
  have spaces := grown.owns.spaces
  have hands := grown.owns.guarded.hands run
  have unused : ¬FrameAlloc.Used a'.bitmap f := hands.fresh f (Nat.le_refl f) (Nat.lt_succ_self f)
  have fresh : ¬Forest.Placed pteFrame LowPath m'.entry R f := fun placed => unused (spaces.placed f placed).1
  have attach := link_attach member low reached free fresh entry bound
  have walks {r : Nat} {q : List (Fin 512)} (root' : r ∈ R) (low' : LowPath q) (y : Nat) :=
    spaces.walk_attach lowPath_closed attach fresh root' low' y
  refine ⟨⟨?_, hands.guarded, ?_⟩, hands.reserved.trans grown.reserved,
    fun q used => (hands.used q).mpr (Or.inl (grown.used q used)), fun r q root' low' length => ?_,
    fun r q y root' low' new used => ?_, fun g used notTable x here => ?_⟩
  · refine spaces.attach lowPath_closed attach fresh (fun g => hands.taken)
      (hands.taken_new (Nat.le_refl f) (Nat.lt_succ_self f)) fun g pending => ⟨pending, ?_⟩
    rintro rfl
    exact unused (spaces.pending g pending).1.1
  · rw [hands.reserved]
    refine grown.owns.upper_edit member low reached fun u j kind other => attach.others u j ?_ other
    rintro rfl
    rcases kind with below | member'
    · exact absurd (hands.above (Nat.le_refl 1)) (by omega)
    · exact unused (grown.owns.taken_root member').1
  · rw [← grown.leaves r q root' low' length]
    refine Option.ext fun y => (walks root' low' y).trans (or_iff_left ?_)
    rintro ⟨_, rfl, _⟩
    rw [List.length_append, List.length_singleton] at length
    omega
  · rcases (walks root' low' y).mp new with old | ⟨_, _, rfl⟩
    · exact grown.back r q y root' low' old used
    · exact absurd (grown.used y used) unused
  · have other : g ≠ f := fun same => unused (same ▸ grown.used g used)
    have table := grown.not_table member low reached used notTable
    rw [Mem.setEntry_of_ne _ _ _ (here ▸ table), Mem.zeroFrame_of_ne _ (here ▸ other),
      grown.bytes g used notTable x here]

/-- New flags on an entry that still points to the same frame. -/
theorem entry_widen (same : pteFrame e = pteFrame (m.entry t i)) (bound : e < 2 ^ 64) (u : Nat) (j : Fin 512) :
    pteFrame ((m.setEntry t i e).entry u j) = pteFrame (m.entry u j) := by
  by_cases here : u = t ∧ j = i
  · obtain ⟨rfl, rfl⟩ := here
    rw [Mem.entry_setEntry_self _ _ _ bound, same]
  · rw [Mem.entry_setEntry_of_ne _ _ here]

theorem Grown.widen (grown : Grown root R pend m a m' a') (member : root ∈ R) (low : LowPath (p ++ [i]))
    (reached : tableWalk m' root p = some t) (same : pteFrame e = pteFrame (m'.entry t i)) (bound : e < 2 ^ 64) :
    Grown root R pend m a (m'.setEntry t i e) a' := by
  have entries := entry_widen same bound
  have walks (r : Nat) (q : List (Fin 512)) : tableWalk (m'.setEntry t i e) r q = tableWalk m' r q :=
    Forest.walk_congr fun _ j _ u _ _ => entries u j
  refine ⟨⟨grown.owns.spaces.unmoved fun r q _ _ => walks r q, grown.owns.guarded,
      grown.owns.upper.congr (fun u _ j => entries u j) fun r _ j _ => entries r j⟩, grown.reserved, grown.used,
    fun r q root' low' length => (walks r q).trans (grown.leaves r q root' low' length),
    fun r q y root' low' new used => grown.back r q y root' low' ((walks r q).symm.trans new) used,
    fun g used notTable x here => ?_⟩
  have table := grown.not_table member low reached used notTable
  rw [Mem.setEntry_of_ne _ _ _ (here ▸ table), grown.bytes g used notTable x here]

theorem TableGrowth.grown (growth : TableGrowth root m a m' a') (owns : Owns m a R pend) (member : root ∈ R) :
    Grown root R pend m a m' a' := by
  induction growth with
  | refl => exact Grown.refl owns
  | link _ low short reached free run entry bound ih => exact ih.link member low short reached free run entry bound
  | widen _ low _ reached _ _ same bound ih => exact ih.widen member low reached same bound

theorem Owns.single (owns : Owns m a R pend) (member : root ∈ R) : Owns m a {root} ∅ :=
  owns.restrict (Set.singleton_subset_iff.mpr member) (Set.empty_subset pend)

/-- Giving back a frame without a place. -/
theorem Owns.release (owns : Owns m a R pend) (unplaced : ¬Forest.Placed pteFrame LowPath m.entry R f)
    (fewer : ∀ g ∈ pend', g ∈ pend ∧ g ≠ f) : Owns m (a.deallocateContiguous f 1) R pend' := by
  refine ⟨owns.spaces.adjust (fun g placed => ?_) fun g member => ?_, owns.guarded.deallocate f 1, ?_⟩
  · exact (owns.spaces.placed g placed).deallocate fun same => unplaced (same ▸ placed)
  · obtain ⟨old, apart⟩ := fewer g member
    exact ⟨(owns.spaces.pending g old).1.deallocate apart, (owns.spaces.pending g old).2⟩
  · rw [FrameAlloc.deallocate_reserved]
    exact owns.upper

end

end ProkaKernel
