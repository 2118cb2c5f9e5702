import ProkaKernel.Edits

namespace ProkaKernel

/-- Every entry in the lower halves satisfies `Q`, which is told how many
levels the entry's table is away from the root. -/
def LowEntries (Q : Nat → Nat → Prop) (m : Mem) (R : Set Nat) : Prop :=
  ∀ r ∈ R, ∀ p i t, LowPath (p ++ [i]) → tableWalk m r p = some t → Q p.length (m.entry t i)

/-- What a condition on entries has to allow so that no edit breaks it. -/
structure EntryRule (device : Prop) (Q : Nat → Nat → Prop) : Prop where
  zero : ∀ d, Q d 0
  table : ∀ {d e f}, d ≤ 2 → pteFrame e = some f → e < 2 ^ 64 → Q d e
  widen : ∀ {d e e'}, d ≤ 2 → Q d e → e ≠ 0 → e' / 8 = e / 8 → pteFrame e' = pteFrame e → Q d e'
  leaf : ∀ {frame flags}, LeafFlags flags → frame < 2 ^ 40 → Q 3 (pte frame flags)
  mmio : device → ∀ {frame}, frame < 2 ^ 31 → Q 2 (pte (frame * 512) (mmioFlags ||| PageFlags.hugePage))

section
variable {Q : Nat → Nat → Prop} {device : Prop} {m m' : Mem} {a a' : FrameAlloc} {R pend : Set Nat}
  {root t : Nat} {p : List (Fin 512)} {i : Fin 512}

/-- One entry is written; tables that are reached only afterwards are blank. -/
theorem LowEntries.write (entries : LowEntries Q m R) (owns : Owns m a R pend) (zero : ∀ d, Q d 0) (member : root ∈ R)
    (low : LowPath (p ++ [i])) (reached : tableWalk m root p = some t)
    (walks : ∀ r q y, r ∈ R → LowPath q → tableWalk m' r q = some y →
      tableWalk m r q = some y ∨ ∀ j, LowPath (q ++ [j]) → m'.entry y j = 0)
    (others : ∀ r q u j, r ∈ R → LowPath q → tableWalk m r q = some u → ¬(u = t ∧ j = i) → m'.entry u j = m.entry u j)
    (new : Q p.length (m'.entry t i)) : LowEntries Q m' R := by
  intro r member' q j u low' reached'
  have lowQ : LowPath q := lowPath_closed q [j] low'
  rcases walks r q u member' lowQ reached' with old | blank
  · by_cases here : u = t ∧ j = i
    · obtain ⟨rfl, rfl⟩ := here
      obtain ⟨_, rfl⟩ := owns.spaces.exclusive member' member lowQ (lowPath_closed p [j] low) old reached
      exact new
    · rw [others r q u j member' lowQ old here]
      exact entries r member' q j u low' old
  · rw [blank j low']
    exact zero q.length

/-- Entries are cleared. -/
theorem LowEntries.clear (entries : LowEntries Q m R) (zero : ∀ d, Q d 0)
    (cleared : ∀ u j, m'.entry u j = m.entry u j ∨ m'.entry u j = 0) : LowEntries Q m' R := by
  intro r member q j u low reached
  have old : tableWalk m r q = some u := by
    refine Forest.walk_of_cleared (fun s k => ?_) reached
    rcases cleared s k with same | none
    · exact Or.inl (by rw [same])
    · exact Or.inr (by rw [none, pteFrame_zero])
  rcases cleared u j with same | none
  · rw [same]
    exact entries r member q j u low old
  · rw [none]
    exact zero q.length

/-- An entry gets a new value that points to the same frame as the old one. -/
theorem LowEntries.widen {e : Nat} (entries : LowEntries Q m R) (owns : Owns m a R pend) (zero : ∀ d, Q d 0)
    (member : root ∈ R) (low : LowPath (p ++ [i])) (reached : tableWalk m root p = some t)
    (same : pteFrame e = pteFrame (m.entry t i)) (bound : e < 2 ^ 64) (new : Q p.length e) :
    LowEntries Q (m.setEntry t i e) R := by
  refine entries.write owns zero member low reached (fun r q y _ _ reached' => Or.inl ?_)
    (fun r q u j _ _ _ other => Mem.entry_setEntry_of_ne _ _ other) ?_
  · have walks : tableWalk (m.setEntry t i e) r q = tableWalk m r q :=
      Forest.walk_congr fun _ j _ u _ _ => entry_widen same bound u j
    exact walks.symm.trans reached'
  · rw [Mem.entry_setEntry_self _ _ _ bound]
    exact new

theorem TableGrowth.lowEntries (growth : TableGrowth root m a m' a') (rule : EntryRule device Q) (owns : Owns m a R pend)
    (member : root ∈ R) (entries : LowEntries Q m R) : LowEntries Q m' R := by
  induction growth with
  | refl => exact entries
  | link before low short reached free run entry bound ih =>
    have grown := before.grown owns member
    have spaces := grown.owns.spaces
    have fresh := (grown.owns.guarded.hands run).fresh _ (Nat.le_refl _) (Nat.lt_succ_self _)
    have unplaced : ¬Forest.Placed pteFrame LowPath _ R _ := fun placed => fresh (spaces.placed _ placed).1
    have attach := link_attach member low reached free unplaced entry bound
    refine ih.write grown.owns rule.zero member low reached (fun r q y member' low' reached' => ?_)
      (fun r q u j member' low' old other => ?_) ?_
    · rcases (spaces.walk_attach lowPath_closed attach unplaced member' low' y).mp reached' with old | ⟨_, _, rfl⟩
      · exact Or.inl old
      · refine Or.inr fun j _ => ?_
        rw [Mem.entry_setEntry_of_ne, Mem.entry_zeroFrame_self]
        rintro ⟨rfl, _⟩
        exact unplaced ⟨root, _, member, lowPath_closed _ _ low, reached⟩
    · rw [Mem.entry_setEntry_of_ne _ _ other, Mem.entry_zeroFrame_of_ne]
      rintro rfl
      exact unplaced ⟨r, q, member', low', old⟩
    · rw [Mem.entry_setEntry_self _ _ _ bound]
      exact rule.table short entry bound
  | widen before low short reached used same8 same bound ih =>
    have old := ih root member _ _ _ low reached
    exact ih.widen (before.grown owns member).owns rule.zero member low reached same bound
      (rule.widen short old used same8 same)

end

section
variable {Q : Nat → Nat → Prop} {back device : Prop} {c c' : Snapshot}

/-- Every edit keeps such a condition. -/
theorem Edit.lowEntries (edit : Edit back device c c') (rule : EntryRule device Q) (owned : c.Owned)
    (entries : LowEntries Q c.mem c.roots) : LowEntries Q c'.mem c'.roots := by
  cases edit with
  | take _ _ => exact entries
  | fill others =>
    intro r member p i t low reached
    have lowP := lowPath_closed p [i] low
    have old := (Owns.walk_filled owned others member lowP).symm.trans reached
    have outside : t ∉ c.pend := fun pending => (owned.spaces.pending t pending).2 ⟨r, p, member, lowP, old⟩
    rw [entry_filled others outside]
    exact entries r member p i t low old
  | @plant root upper _ pending shared _ =>
    intro r member p i t low reached
    have unplaced := (owned.spaces.pending root pending).2
    have lowP := lowPath_closed p [i] low
    rcases (Forest.walk_plant lowPath_closed (root_plant c.mem root _) unplaced member lowP t).mp reached with
      ⟨old, reached'⟩ | ⟨_, rfl, rfl⟩
    · have other : t ≠ root := fun same => unplaced ⟨r, p, old, lowP, same ▸ reached'⟩
      rw [entry_root _ _ _ other]
      exact entries r old p i t low reached'
    · rw [entry_root_self _ _ _ (low_ne_256 low)]
      exact rule.zero 0
  | grow member growth => exact growth.lowEntries rule owned member entries
  | map member bound leaf pending inRam last free _ =>
    have attach := last.attach member bound leaf.ok free inRam
    have unplaced := (owned.spaces.pending _ pending).2
    refine entries.write owned rule.zero member (last.low bound) last.reached (fun r q y member' low' reached' => ?_)
      (fun r q u j _ _ _ other => Mem.entry_setEntry_of_ne _ _ other) ?_
    · rcases (owned.spaces.walk_attach lowPath_closed attach unplaced member' low' y).mp reached' with old | ⟨_, rfl, _⟩
      · exact Or.inl old
      · refine Or.inr fun j deep => absurd ?_ (last.leaf j)
        rw [List.append_assoc] at deep
        exact deep
    · rw [Mem.entry_setEntry_self _ _ _ (pte_lt inRam leaf.ok), last.length]
      exact rule.leaf leaf inRam
  | unmap _ _ _ _ _ _ => exact entries.clear rule.zero fun u j => Mem.entry_clear _ _ _ u j
  | give _ _ _ => exact entries
  | trim _ _ trim => exact entries.clear rule.zero trim.entry_cleared
  | device allowed member low length reached free inRange =>
    obtain ⟨none, bound⟩ := mmio_entry inRange
    exact entries.widen owned rule.zero member low reached (by rw [none, free, pteFrame_zero]) bound
      (length ▸ rule.mmio allowed inRange)
  | drop _ => exact entries

theorem Edits.lowEntries (edits : Edits back device c c') (rule : EntryRule device Q) (owned : c.Owned)
    (entries : LowEntries Q c.mem c.roots) : LowEntries Q c'.mem c'.roots :=
  (edits.keeps (P := fun d => LowEntries Q d.mem d.roots) (fun edit => edit.lowEntries rule) owned entries).2

end

/-- Without devices there are no huge pages in the lower half. -/
theorem entryRule_single : EntryRule False fun _ e => e = 0 ∨ pteFrame e ≠ none where
  zero _ := Or.inl rfl
  table _ table _ := Or.inr (by rw [table]; exact Option.some_ne_none _)
  widen _ old used _ same := Or.inr (same ▸ old.resolve_left used)
  leaf leaf inRam := Or.inr (by rw [pteFrame_pte inRam leaf.ok]; exact Option.some_ne_none _)
  mmio := False.elim

end ProkaKernel
