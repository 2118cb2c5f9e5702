import ProkaKernel.Mapper

namespace ProkaKernel

section
variable {root page frame flags : Nat} {R pend pend' : Set Nat} {m m' : Mem} {a a' : FrameAlloc}
  {p : List (Fin 512)} {i : Fin 512} {t f : Nat}

theorem not_low_head (length : (p ++ [i]).length ≤ 4) (notLow : ¬LowPath (p ++ [i])) :
    (p = [] ∧ 256 ≤ i.val) ∨ ∃ j q, p = j :: q ∧ 256 ≤ j.val := by
  cases p with
  | nil =>
    refine Or.inl ⟨rfl, Nat.le_of_not_lt fun low => notLow ⟨length, ?_⟩⟩
    intro j first
    cases first
    exact low
  | cons j q =>
    refine Or.inr ⟨j, q, rfl, Nat.le_of_not_lt fun low => notLow ⟨length, ?_⟩⟩
    intro k first
    cases first
    exact low

/-- A table of the upper half and the entry it hangs on are the kernel's. -/
theorem Owns.upper_place (owns : Owns m a R pend) (member : root ∈ R) (short : p.length ≤ 2)
    (notLow : ¬LowPath (p ++ [i])) (reached : tableWalk m root p = some t) (entry : pteFrame (m.entry t i) = some f) :
    f < a.reserved ∧ (t < a.reserved ∨ (t = root ∧ 256 ≤ i.val)) := by
  have length : (p ++ [i]).length ≤ 4 := by
    rw [List.length_append, List.length_singleton]
    omega
  rcases not_low_head length notLow with ⟨rfl, high⟩ | ⟨j, q, rfl, high⟩
  · obtain rfl : root = t := Option.some.inj reached
    have shared := owns.upper.linked root member i high f entry
    exact ⟨owns.upper.below f shared [] f (Nat.zero_le 2) rfl, Or.inr ⟨rfl, high⟩⟩
  · obtain ⟨s, first, rest⟩ := Option.bind_eq_some_iff.mp reached
    have shared := owns.upper.linked root member j high s first
    rw [List.length_cons] at short
    refine ⟨owns.upper.below s shared (q ++ [i]) f ?_ ?_, Or.inl (owns.upper.below s shared q t (by omega) rest)⟩
    · rw [List.length_append, List.length_singleton]
      omega
    · change tableWalk m s q = some t at rest
      rw [tableWalk, Forest.walk_through rest, entry]
      rfl

/-- Clearing an entry that hangs on the upper half changes no lower half. -/
theorem Owns.walk_clear_upper (owns : Owns m a R pend) (place : t < a.reserved ∨ (t ∈ R ∧ 256 ≤ i.val)) {r : Nat}
    {q : List (Fin 512)} (member : r ∈ R) (low : LowPath q) : tableWalk (m.setEntry t i 0) r q = tableWalk m r q := by
  refine Forest.walk_congr fun s j rest u split here => ?_
  rw [Mem.entry_setEntry_of_ne]
  rintro ⟨rfl, rfl⟩
  have lowS : LowPath s := lowPath_closed s (j :: rest) (split ▸ low)
  rcases place with below | ⟨member', high⟩
  · have taken := owns.spaces.placed u ⟨r, s, member, lowS, here⟩
    exact absurd taken.2 (by omega)
  · obtain ⟨_, rfl⟩ := owns.root_path member member' lowS here
    exact absurd (low.2 j (split ▸ rfl)) (by omega)

theorem Owns.clear_upper (owns : Owns m a R pend) (place : t < a.reserved ∨ (t ∈ R ∧ 256 ≤ i.val)) :
    Owns (m.setEntry t i 0) a R pend :=
  ⟨owns.spaces.unmoved fun _ _ => owns.walk_clear_upper place, owns.guarded, owns.upper.clear t i⟩

/-- Clearing the entry of a childless frame takes that frame off its place. -/
theorem Owns.clear_lower (owns : Owns m a R pend) (member : root ∈ R) (low : LowPath (p ++ [i]))
    (reached : tableWalk m root p = some t) (entry : pteFrame (m.entry t i) = some f)
    (childless : ∀ j, LowPath (p ++ [i, j]) → pteFrame (m.entry f j) = none) :
    Forest.Detach pteFrame LowPath m.entry (m.setEntry t i 0).entry R root p i t f ∧
      Owns (m.setEntry t i 0) a R (insert f pend) := by
  have detach : Forest.Detach pteFrame LowPath m.entry (m.setEntry t i 0).entry R root p i t f := by
    refine ⟨member, low, reached, entry, childless, ?_, fun u j other => ?_⟩
    · rw [Mem.entry_setEntry_self _ _ _ (by decide), pteFrame_zero]
    · rw [Mem.entry_setEntry_of_ne _ _ other]
  exact ⟨detach, owns.spaces.detach lowPath_closed detach, owns.guarded, owns.upper.clear t i⟩

theorem Owns.prune (owns : Owns m a R pend) (member : root ∈ R) (short : p.length ≤ 2)
    (reached : tableWalk m root p = some t) (entry : pteFrame (m.entry t i) = some f)
    (empty : ∀ j, m.entry f j = 0) : Owns (m.setEntry t i 0) (a.deallocateContiguous f 1) R pend := by
  by_cases low : LowPath (p ++ [i])
  · obtain ⟨_, cleared⟩ := owns.clear_lower member low reached entry fun j _ => by rw [empty j, pteFrame_zero]
    have placed : Forest.Placed pteFrame LowPath m.entry R f := by
      refine ⟨root, p ++ [i], member, low, ?_⟩
      rw [Forest.walk_through reached, entry]
      rfl
    refine cleared.release (cleared.spaces.pending f (Set.mem_insert f pend)).2 fun g pending => ?_
    refine ⟨Set.mem_insert_of_mem f pending, ?_⟩
    rintro rfl
    exact (owns.spaces.pending g pending).2 placed
  · obtain ⟨below, place⟩ := owns.upper_place member short low reached entry
    rw [FrameAlloc.deallocate_low below]
    refine owns.clear_upper (place.imp_right fun both => ⟨?_, both.2⟩)
    rw [both.1]
    exact member

theorem TableTrim.owns (trim : TableTrim root m a m' a') (owns : Owns m a R pend) (member : root ∈ R) :
    Owns m' a' R pend := by
  induction trim with
  | refl => exact owns
  | prune _ short reached entry empty ih => exact ih.prune member short reached entry empty

theorem TableTrim.reserved (trim : TableTrim root m a m' a') : a'.reserved = a.reserved := by
  induction trim with
  | refl => rfl
  | prune _ _ _ _ _ ih => rw [FrameAlloc.deallocate_reserved, ih]

theorem LastEntry.length (last : LastEntry m root page p i t) : p.length = 3 := by
  have length := congrArg List.length last.path
  rw [List.length_append, List.length_singleton] at length
  exact (Nat.succ.inj length).symm

theorem LastEntry.low (last : LastEntry m root page p i t) (bound : page < 2 ^ 35) : LowPath (p ++ [i]) :=
  last.path ▸ pagePath_low bound

theorem LastEntry.translate (last : LastEntry m root page p i t) : translate m root page = pteFrame (m.entry t i) := by
  unfold ProkaKernel.translate
  rw [last.path, tableWalk, Forest.walk_through last.reached]
  cases pteFrame (m.entry t i) <;> rfl

theorem LastEntry.leaf (last : LastEntry m root page p i t) (j : Fin 512) : ¬LowPath (p ++ [i, j]) := by
  intro low
  have length := low.1
  rw [List.length_append, last.length] at length
  exact absurd length (Nat.not_succ_le_self 4)

/-- The last entry, while it is free, is a place for a frame. -/
theorem LastEntry.attach (last : LastEntry m root page p i t) (member : root ∈ R) (bound : page < 2 ^ 35)
    (ok : PageFlags.Ok flags) (free : m.entry t i = 0) (inRam : frame < 2 ^ 40) :
    Forest.Attach pteFrame LowPath m.entry (m.setEntry t i (pte frame flags)).entry R root p i t frame := by
  refine ⟨member, last.low bound, last.reached, by rw [free, pteFrame_zero], ?_, fun j deep => absurd deep (last.leaf j),
    fun u j _ other => ?_⟩
  · rw [Mem.entry_setEntry_self _ _ _ (pte_lt inRam ok), pteFrame_pte inRam ok]
  · rw [Mem.entry_setEntry_of_ne _ _ other]

/-- What a successful `map_to` does to all address spaces. -/
structure Mapped (root page frame : Nat) (R pend : Set Nat) (m : Mem) (a : FrameAlloc) (m' : Mem)
    (a' : FrameAlloc) : Prop where
  owns : Owns m' a' R pend
  reserved : a'.reserved = a.reserved
  used : ∀ q, FrameAlloc.Used a.bitmap q → FrameAlloc.Used a'.bitmap q
  free : translate m root page = none
  pages : ∀ r page' y, r ∈ R → page' < 2 ^ 35 →
    (translate m' r page' = some y ↔ translate m r page' = some y ∨ (r = root ∧ page' = page ∧ y = frame))
  tables : ∀ r p f, r ∈ R → LowPath p → p.length ≤ 3 → tableWalk m' r p = some f → FrameAlloc.Used a.bitmap f →
    tableWalk m r p = some f
  bytes : ∀ g, FrameAlloc.Used a.bitmap g → (∀ p, LowPath p → p.length ≤ 3 → tableWalk m root p ≠ some g) →
    ∀ x, x / 4096 = g → m' x = m x

theorem Grown.mapped (grown : Grown root R pend m a m' a') (member : root ∈ R) (bound : page < 2 ^ 35)
    (ok : PageFlags.Ok flags) (pending : frame ∈ pend) (last : LastEntry m' root page p i t)
    (free : m'.entry t i = 0) (inRam : frame < 2 ^ 40) (fewer : ∀ g ∈ pend', g ∈ pend ∧ g ≠ frame) :
    Mapped root page frame R pend' m a (m'.setEntry t i (pte frame flags)) a' := by
  have low := last.low bound
  have spaces := grown.owns.spaces
  have unplaced := (spaces.pending frame pending).2
  have attach := last.attach member bound ok free inRam
  have walks {r : Nat} {q : List (Fin 512)} (root' : r ∈ R) (low' : LowPath q) (y : Nat) :=
    spaces.walk_attach lowPath_closed attach unplaced root' low' y
  refine ⟨⟨?_, grown.owns.guarded, ?_⟩, grown.reserved, grown.used, ?_, fun r page' y root' bound' => ?_,
    fun r q y root' low' short new used => ?_, fun g used notTable x here => ?_⟩
  · exact spaces.attach lowPath_closed attach unplaced (fun _ => id) (spaces.pending frame pending).1 fewer
  · exact grown.owns.upper_edit member low last.reached fun u j _ other => by rw [Mem.entry_setEntry_of_ne _ _ other]
  · have none := last.translate
    rw [free, pteFrame_zero] at none
    exact (grown.leaves root _ member (pagePath_low bound) rfl).symm.trans none
  · have same := grown.leaves r _ root' (pagePath_low bound') rfl
    refine (walks root' (pagePath_low bound') y).trans (or_congr (iff_of_eq (congrArg (· = some y) same)) ?_)
    refine and_congr_right fun _ => and_congr_left fun _ => ⟨fun path => ?_, fun same => by rw [same, last.path]⟩
    exact pagePath_inj (by omega) (by omega) (path.trans last.path.symm)
  · rcases (walks root' low' y).mp new with old | ⟨_, rfl, _⟩
    · exact grown.back r q y root' low' old used
    · rw [List.length_append, last.length, List.length_singleton] at short
      exact absurd short (by decide)
  · have table := grown.not_table member low last.reached used notTable
    rw [Mem.setEntry_of_ne _ _ _ (here ▸ table), grown.bytes g used notTable x here]

/-- What a successful `unmap` does to all address spaces. -/
structure Unmapped (root page frame : Nat) (R pend : Set Nat) (m : Mem) (a : FrameAlloc) (m' : Mem) : Prop where
  owns : Owns m' a R (insert frame pend)
  was : translate m root page = some frame
  pages : ∀ r page' y, r ∈ R → page' < 2 ^ 35 →
    (translate m' r page' = some y ↔ translate m r page' = some y ∧ ¬(r = root ∧ page' = page))

namespace PageMapper
variable (mapper : PageMapper)

theorem mapTo_mapped (owns : Owns m a R pend) (member : root ∈ R) (bound : page < 2 ^ 35) (ok : PageFlags.Ok flags)
    (pending : frame ∈ pend) (run : mapper.mapTo m a root page frame flags = (true, m', a'))
    (fewer : ∀ g ∈ pend', g ∈ pend ∧ g ≠ frame) : Mapped root page frame R pend' m a m' a' := by
  obtain ⟨middle, p, i, t, growth, last, free, inRam, rfl⟩ := mapper.mapTo_ok (owns.single member) bound ok run
  exact (growth.grown owns member).mapped member bound ok pending last free inRam fewer

theorem mapTo_grown (owns : Owns m a R pend) (member : root ∈ R) (bound : page < 2 ^ 35) (ok : PageFlags.Ok flags)
    (run : mapper.mapTo m a root page frame flags = (false, m', a')) : Grown root R pend m a m' a' :=
  (mapper.mapTo_err (owns.single member) bound ok run).grown owns member

theorem unmap_unmapped (owns : Owns m a R pend) (member : root ∈ R) (bound : page < 2 ^ 35)
    (run : mapper.unmap m root page = (some frame, m')) : Unmapped root page frame R pend m a m' := by
  obtain ⟨p, i, t, last, entry, rfl⟩ := mapper.unmap_ok bound run
  obtain ⟨detach, cleared⟩ := owns.clear_lower member (last.low bound) last.reached entry
    fun j deep => absurd deep (last.leaf j)
  refine ⟨cleared, last.translate.trans entry, fun r page' y root' bound' => ?_⟩
  refine (owns.spaces.walk_detach lowPath_closed detach root' (pagePath_low bound') y).trans ?_
  refine and_congr_right fun _ => not_congr (and_congr_right fun _ => ⟨fun path => ?_, fun same => ?_⟩)
  · exact pagePath_inj (by omega) (by omega) (path.trans last.path.symm)
  · rw [same, last.path]

theorem cleanUp_owns (owns : Owns m a R pend) (member : root ∈ R) (run : mapper.cleanUp m a root = (m', a')) :
    Owns m' a' R pend ∧ a'.reserved = a.reserved := by
  have trim := mapper.cleanUp_trims (owns.single member) run
  exact ⟨trim.owns owns member, trim.reserved⟩

end PageMapper

end

end ProkaKernel
