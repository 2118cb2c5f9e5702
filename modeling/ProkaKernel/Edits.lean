import Mathlib.Logic.Relation
import ProkaKernel.Kernel

namespace ProkaKernel

/-- Memory and allocator, with the level-4 tables of all address spaces and
the frames that were taken and are not in use yet. -/
structure Snapshot where
  mem : Mem
  alloc : FrameAlloc
  roots : Set Nat
  pend : Set Nat

def Snapshot.Owned (c : Snapshot) : Prop := Owns c.mem c.alloc c.roots c.pend

/-- The flags with which the kernel maps pages of 4 KiB for a process. -/
def LeafFlags (flags : Nat) : Prop :=
  (∃ typ, flags = Kernel.stackFlags typ) ∨ (∃ typ executable, flags = Kernel.sectionFlags typ executable) ∨
    flags = Kernel.heapFlags

theorem LeafFlags.ok {flags : Nat} (leaf : LeafFlags flags) : PageFlags.Ok flags := by
  rcases leaf with ⟨typ, rfl⟩ | ⟨typ, executable, rfl⟩ | rfl
  · cases typ <;> decide
  · cases typ <;> cases executable <;> decide
  · decide

/-- The flags with which `map_mmio` maps pages of 2 MiB. -/
def mmioFlags : Nat :=
  PageFlags.present ||| PageFlags.writable ||| PageFlags.writeThrough ||| PageFlags.noCache ||| PageFlags.noExecute

/-- Everything that kernel calls do to memory. Pages are unmapped and frames
given back only if `back` holds, and device memory is mapped only if `device` holds. -/
inductive Edit (back device : Prop) (c : Snapshot) : Snapshot → Prop
  | take {n f a pend} : c.alloc.allocateContiguous n = some (f, a) →
      (∀ g ∈ pend, g ∈ c.pend ∨ (f ≤ g ∧ g < f + n)) → Edit back device c { c with alloc := a, pend := pend }
  | fill {m} : (∀ x, x / 4096 ∉ c.pend → m x = c.mem x) → Edit back device c { c with mem := m }
  | plant {root upper pend} : root ∈ c.pend → Shared upper → (∀ g ∈ pend, g ∈ c.pend ∧ g ≠ root) →
      Edit back device c { c with
        mem := (c.mem.zeroFrame root).setEntry root 256 (pte upper (PageFlags.present ||| PageFlags.writable))
        roots := insert root c.roots
        pend := pend }
  | grow {root m a} : root ∈ c.roots → TableGrowth root c.mem c.alloc m a →
      Edit back device c { c with mem := m, alloc := a }
  | map {root page frame flags p i t pend} : root ∈ c.roots → page < 2 ^ 35 → LeafFlags flags → frame ∈ c.pend →
      frame < 2 ^ 40 → LastEntry c.mem root page p i t → c.mem.entry t i = 0 →
      (∀ g ∈ pend, g ∈ c.pend ∧ g ≠ frame) →
      Edit back device c { c with mem := c.mem.setEntry t i (pte frame flags), pend := pend }
  | unmap {root page frame p i t pend} : back → root ∈ c.roots → page < 2 ^ 35 → LastEntry c.mem root page p i t →
      pteFrame (c.mem.entry t i) = some frame → (∀ g ∈ pend, g = frame ∨ g ∈ c.pend) →
      Edit back device c { c with mem := c.mem.setEntry t i 0, pend := pend }
  | give {frame pend} : back → frame ∈ c.pend → (∀ g ∈ pend, g ∈ c.pend ∧ g ≠ frame) →
      Edit back device c { c with alloc := c.alloc.deallocateContiguous frame 1, pend := pend }
  | trim {root m a} : back → root ∈ c.roots → TableTrim root c.mem c.alloc m a →
      Edit back device c { c with mem := m, alloc := a }
  | device {root frame p i t} : device → root ∈ c.roots → LowPath (p ++ [i]) → p.length = 2 →
      tableWalk c.mem root p = some t → c.mem.entry t i = 0 → frame < 2 ^ 31 →
      Edit back device c { c with
        mem := c.mem.setEntry t i (pte (frame * 512) (mmioFlags ||| PageFlags.hugePage)) }
  | drop {pend} : (∀ g ∈ pend, g ∈ c.pend) → Edit back device c { c with pend := pend }

/-- The edits of one kernel call, or of many. -/
abbrev Edits (back device : Prop) : Snapshot → Snapshot → Prop := Relation.ReflTransGen (Edit back device)

section
variable {m m' : Mem} {a a' : FrameAlloc} {R pend pend' : Set Nat}

/-- Frames from the allocator have no place. -/
theorem Owns.take (owns : Owns m a R pend) {n f : Nat} (run : a.allocateContiguous n = some (f, a'))
    (members : ∀ g ∈ pend', g ∈ pend ∨ (f ≤ g ∧ g < f + n)) : Owns m a' R pend' := by
  have hands := owns.guarded.hands run
  have spaces := owns.spaces
  refine ⟨spaces.adjust (fun g placed => hands.taken (spaces.placed g placed)) fun g member => ?_, hands.guarded, ?_⟩
  · rcases members g member with old | ⟨lower, upper⟩
    · exact ⟨hands.taken (spaces.pending g old).1, (spaces.pending g old).2⟩
    · exact ⟨hands.taken_new lower upper, fun placed => hands.not_taken lower upper (spaces.placed g placed)⟩
  · rw [hands.reserved]
    exact owns.upper

theorem entry_filled (others : ∀ x, x / 4096 ∉ pend → m' x = m x) {u : Nat} (outside : u ∉ pend) (j : Fin 512) :
    m'.entry u j = m.entry u j :=
  Mem.entry_congr (fun x here => others x (here ▸ outside)) j

theorem Owns.walk_filled (owns : Owns m a R pend) (others : ∀ x, x / 4096 ∉ pend → m' x = m x) {r : Nat}
    {p : List (Fin 512)} (member : r ∈ R) (low : LowPath p) : tableWalk m' r p = tableWalk m r p := by
  refine Forest.walk_congr fun q j rest t split here => ?_
  rw [entry_filled others fun pending => (owns.spaces.pending t pending).2
    ⟨r, q, member, lowPath_closed q (j :: rest) (split ▸ low), here⟩]

/-- An edit of frames without a place. -/
theorem Owns.edit_pending (owns : Owns m a R pend) (others : ∀ x, x / 4096 ∉ pend → m' x = m x) :
    Owns m' a R pend := by
  have entries (u : Nat) (j : Fin 512) (outside : u ∉ pend) : m'.entry u j = m.entry u j :=
    entry_filled others outside j
  refine ⟨owns.spaces.unmoved fun r p member low => owns.walk_filled others member low, owns.guarded,
    owns.upper.congr (fun t below j => ?_) fun r member j _ => ?_⟩
  · rw [entries t j fun pending => absurd (owns.spaces.pending t pending).1.2 (by omega)]
  · rw [entries r j fun pending => (owns.spaces.pending r pending).2
      ⟨r, [], member, ⟨Nat.zero_le _, fun _ none => nomatch none⟩, rfl⟩]

theorem Shared.lt {upper : Nat} (shared : Shared upper) : upper < 2 ^ 40 := by
  rcases shared with rfl | rfl <;> decide

/-- The entries of a new level-4 table, and of all other frames beside it. -/
theorem entry_root (m : Mem) (root value : Nat) {u : Nat} {j : Fin 512} (other : u ≠ root) :
    ((m.zeroFrame root).setEntry root 256 value).entry u j = m.entry u j := by
  rw [Mem.entry_setEntry_of_ne _ _ fun both => other both.1, Mem.entry_zeroFrame_of_ne _ other]

theorem entry_root_self (m : Mem) (root value : Nat) {j : Fin 512} (other : j ≠ 256) :
    ((m.zeroFrame root).setEntry root 256 value).entry root j = 0 := by
  rw [Mem.entry_setEntry_of_ne _ _ fun both => other both.2, Mem.entry_zeroFrame_self]

theorem low_ne_256 {j : Fin 512} (low : LowPath [j]) : j ≠ 256 := by
  rintro rfl
  exact absurd (low.2 256 rfl) (by decide)

theorem Owns.unrooted (owns : Owns m a R pend) {root : Nat} (pending : root ∈ pend) : root ∉ R := fun member =>
  (owns.spaces.pending root pending).2 ⟨root, [], member, ⟨Nat.zero_le _, fun _ none => nomatch none⟩, rfl⟩

theorem root_plant (m : Mem) (root value : Nat) :
    Forest.Plant pteFrame LowPath m.entry ((m.zeroFrame root).setEntry root 256 value).entry root :=
  ⟨fun j low => by rw [entry_root_self _ _ _ (low_ne_256 low), pteFrame_zero],
    fun u j other => by rw [entry_root _ _ _ other]⟩

/-- A pending frame becomes the root of a new address space. -/
theorem Owns.plant (owns : Owns m a R pend) {root upper flags : Nat} (pending : root ∈ pend) (shared : Shared upper)
    (ok : PageFlags.Ok flags) (fewer : ∀ g ∈ pend', g ∈ pend ∧ g ≠ root) :
    Owns ((m.zeroFrame root).setEntry root 256 (pte upper flags)) a (insert root R) pend' := by
  obtain ⟨taken, unplaced⟩ := owns.spaces.pending root pending
  have unrooted := owns.unrooted pending
  have above (t : Nat) (below : t < a.reserved) : t ≠ root := by
    have lower := taken.2
    omega
  have apart (r : Nat) (member : r ∈ R) : r ≠ root := fun same => unrooted (same ▸ member)
  have kept : Upper ((m.zeroFrame root).setEntry root 256 (pte upper flags)) a.reserved R :=
    owns.upper.congr (fun t below j => by rw [entry_root _ _ _ (above t below)])
      fun r member j _ => by rw [entry_root _ _ _ (apart r member)]
  refine ⟨owns.spaces.plant lowPath_closed (root_plant m root _) unplaced (fun _ => id) taken fewer, owns.guarded, kept.below,
    fun r member j high f entry => ?_⟩
  rcases Set.mem_insert_iff.mp member with rfl | old
  · by_cases high256 : j = 256
    · rw [high256, Mem.entry_setEntry_self _ _ _ (pte_lt shared.lt ok), pteFrame_pte shared.lt ok] at entry
      exact Option.some.inj entry ▸ shared
    · rw [entry_root_self _ _ _ high256, pteFrame_zero] at entry
      cases entry
  · exact kept.linked r old j high f entry

end

section
variable {back device : Prop} {c c' : Snapshot}

theorem mmio_entry {frame : Nat} (inRange : frame < 2 ^ 31) :
    pteFrame (pte (frame * 512) (mmioFlags ||| PageFlags.hugePage)) = none ∧
      pte (frame * 512) (mmioFlags ||| PageFlags.hugePage) < 2 ^ 64 := by
  have value : mmioFlags ||| PageFlags.hugePage = 2 ^ 63 + 0x9b := by decide
  unfold pte
  rw [value]
  refine ⟨if_neg fun both => ?_, ?_⟩
  · omega
  · omega

/-- Every edit keeps all address spaces apart. -/
theorem Edit.owned (edit : Edit back device c c') (owned : c.Owned) : c'.Owned := by
  cases edit with
  | take run members => exact Owns.take owned run members
  | fill others => exact Owns.edit_pending owned others
  | plant pending shared fewer => exact Owns.plant owned pending shared (by decide) fewer
  | grow member growth => exact (growth.grown owned member).owns
  | map member bound leaf pending inRam last free fewer =>
    exact ((Grown.refl owned).mapped member bound leaf.ok pending last free inRam fewer).owns
  | unmap _ member bound last entry fewer =>
    have cleared := (Owns.clear_lower owned member (last.low bound) last.reached entry
      fun j deep => absurd deep (last.leaf j)).2
    exact cleared.restrict (fun _ => id) fewer
  | give _ pending fewer => exact Owns.release owned (owned.spaces.pending _ pending).2 fewer
  | trim _ member trim => exact trim.owns owned member
  | device _ member low _ reached free inRange =>
    obtain ⟨none, bound⟩ := mmio_entry inRange
    exact ((Grown.refl owned).widen member low reached (by rw [none, free, pteFrame_zero]) bound).owns
  | drop fewer => exact Owns.restrict owned (fun _ => id) fewer

theorem Edit.roots (edit : Edit back device c c') : c.roots ⊆ c'.roots := by
  cases edit with
  | plant => exact Set.subset_insert ..
  | _ => exact fun _ => id

theorem Edit.mono {back' device' : Prop} (edit : Edit back device c c') (giving : back → back')
    (mapping : device → device') : Edit back' device' c c' := by
  cases edit with
  | take run members => exact .take run members
  | fill others => exact .fill others
  | plant pending shared fewer => exact .plant pending shared fewer
  | grow member growth => exact .grow member growth
  | map member bound leaf pending inRam last free fewer => exact .map member bound leaf pending inRam last free fewer
  | unmap allowed member bound last entry fewer => exact .unmap (giving allowed) member bound last entry fewer
  | give allowed pending fewer => exact .give (giving allowed) pending fewer
  | trim allowed member trim => exact .trim (giving allowed) member trim
  | device allowed member low length reached free inRange =>
    exact .device (mapping allowed) member low length reached free inRange
  | drop fewer => exact .drop fewer

theorem Edits.mono {back' device' : Prop} (edits : Edits back device c c') (giving : back → back')
    (mapping : device → device') : Edits back' device' c c' := by
  induction edits with
  | refl => exact .refl
  | tail _ edit ih => exact ih.tail (edit.mono giving mapping)

/-- The rule for invariants of edits. -/
theorem Edits.keeps {P : Snapshot → Prop} (edits : Edits back device c c')
    (step : ∀ {c c'}, Edit back device c c' → c.Owned → P c → P c') (owned : c.Owned) (start : P c) :
    c'.Owned ∧ P c' := by
  induction edits with
  | refl => exact ⟨owned, start⟩
  | tail _ edit ih => exact ⟨edit.owned ih.1, step edit ih.1 ih.2⟩

end

/-- Entries that no process has a part in: those of the kernel's own frames,
and the upper half of every level-4 table. -/
def Protected (a : FrameAlloc) (R : Set Nat) (t : Nat) (j : Fin 512) : Prop :=
  t < a.reserved ∨ (t ∈ R ∧ 256 ≤ j.val)

section
variable {m m' : Mem} {a a' : FrameAlloc} {R pend : Set Nat} {root t u : Nat} {p : List (Fin 512)} {i j : Fin 512}

theorem Owns.protected_used (owns : Owns m a R pend) (safe : Protected a R t j) : FrameAlloc.Used a.bitmap t := by
  rcases safe with below | ⟨member, _⟩
  · exact owns.guarded.marked t (by omega)
  · exact (owns.taken_root member).1

theorem Owns.protected_unpending (owns : Owns m a R pend) (safe : Protected a R t j) : t ∉ pend := by
  intro pending
  rcases safe with below | ⟨member, _⟩
  · exact absurd (owns.spaces.pending t pending).1.2 (by omega)
  · exact owns.unrooted pending member

/-- No entry of the lower half is protected. -/
theorem Owns.protected_apart (owns : Owns m a R pend) (safe : Protected a R t j) (member : root ∈ R)
    (low : LowPath (p ++ [i])) (reached : tableWalk m root p = some u) : ¬(t = u ∧ j = i) := by
  rintro ⟨rfl, rfl⟩
  have lowP : LowPath p := lowPath_closed p [j] low
  rcases safe with below | ⟨isRoot, high⟩
  · exact absurd (owns.spaces.placed t ⟨root, p, member, lowP, reached⟩).2 (by omega)
  · obtain ⟨_, rfl⟩ := owns.root_path member isRoot lowP reached
    exact absurd (low.2 j rfl) (by omega)

theorem TableGrowth.protected_entry (growth : TableGrowth root m a m' a') (owns : Owns m a R pend) (member : root ∈ R)
    (safe : Protected a R t j) : m'.entry t j = m.entry t j := by
  induction growth with
  | refl => rfl
  | link before low _ reached _ run _ _ ih =>
    have grown := before.grown owns member
    have still : Protected _ R t j := safe.imp_left fun below => grown.reserved.symm ▸ below
    have fresh := (grown.owns.guarded.hands run).fresh _ (Nat.le_refl _) (Nat.lt_succ_self _)
    have used := grown.owns.protected_used still
    rw [Mem.entry_setEntry_of_ne _ _ (grown.owns.protected_apart still member low reached),
      Mem.entry_zeroFrame_of_ne _ (by rintro rfl; exact fresh used), ih]
  | widen before low _ reached _ _ _ _ ih =>
    have grown := before.grown owns member
    have still : Protected _ R t j := safe.imp_left fun below => grown.reserved.symm ▸ below
    rw [Mem.entry_setEntry_of_ne _ _ (grown.owns.protected_apart still member low reached), ih]

theorem TableTrim.entry_cleared (trim : TableTrim root m a m' a') (t : Nat) (j : Fin 512) :
    m'.entry t j = m.entry t j ∨ m'.entry t j = 0 := by
  induction trim with
  | refl => exact Or.inl rfl
  | @prune m1 _ _ i u _ _ _ _ _ _ ih =>
    rcases m1.entry_clear u i t j with same | zero
    · rw [same]
      exact ih
    · exact Or.inr zero

end

section
variable {back device : Prop} {c c' : Snapshot} {t : Nat} {j : Fin 512}

theorem Edit.reserved (edit : Edit back device c c') (owned : c.Owned) : c'.alloc.reserved = c.alloc.reserved := by
  cases edit with
  | take run _ => exact (owned.guarded.hands run).reserved
  | grow member growth => exact (growth.grown owned member).reserved
  | give _ _ _ => exact FrameAlloc.deallocate_reserved ..
  | trim _ _ trim => exact trim.reserved
  | _ => rfl

theorem Edits.reserved (edits : Edits back device c c') (owned : c.Owned) : c'.alloc.reserved = c.alloc.reserved :=
  (edits.keeps (P := fun d => d.alloc.reserved = c.alloc.reserved)
    (fun edit dOwned before => (edit.reserved dOwned).trans before) owned rfl).2

/-- A protected entry stays as it is, or is cleared. -/
theorem Edit.protected_entry (edit : Edit back device c c') (owned : c.Owned) (safe : Protected c.alloc c.roots t j) :
    c'.mem.entry t j = c.mem.entry t j ∨ back ∧ c'.mem.entry t j = 0 := by
  cases edit with
  | take _ _ => exact Or.inl rfl
  | fill others =>
    have outside := Owns.protected_unpending owned safe
    exact Or.inl (entry_filled others outside j)
  | plant pending _ _ =>
    have outside := Owns.protected_unpending owned safe
    exact Or.inl (entry_root _ _ _ fun same => outside (same ▸ pending))
  | grow member growth => exact Or.inl (growth.protected_entry owned member safe)
  | map member bound _ _ _ last _ _ =>
    exact Or.inl (Mem.entry_setEntry_of_ne _ _ (Owns.protected_apart owned safe member (last.low bound) last.reached))
  | unmap _ member bound last _ _ =>
    exact Or.inl (Mem.entry_setEntry_of_ne _ _ (Owns.protected_apart owned safe member (last.low bound) last.reached))
  | give _ _ _ => exact Or.inl rfl
  | trim giving _ trim => exact (trim.entry_cleared t j).imp_right fun zero => ⟨giving, zero⟩
  | device _ member low _ reached _ _ =>
    exact Or.inl (Mem.entry_setEntry_of_ne _ _ (Owns.protected_apart owned safe member low reached))
  | drop _ => exact Or.inl rfl

theorem Edits.protected_entry (edits : Edits back device c c') (owned : c.Owned)
    (safe : Protected c.alloc c.roots t j) : c'.mem.entry t j = c.mem.entry t j ∨ back ∧ c'.mem.entry t j = 0 := by
  refine (edits.keeps (P := fun d => Protected d.alloc d.roots t j ∧
    (d.mem.entry t j = c.mem.entry t j ∨ back ∧ d.mem.entry t j = 0)) ?_ owned ⟨safe, Or.inl rfl⟩).2.2
  rintro d d' edit dOwned ⟨still, before⟩
  refine ⟨?_, ?_⟩
  · rcases still with below | ⟨member, high⟩
    · exact Or.inl ((edit.reserved dOwned).symm ▸ below)
    · exact Or.inr ⟨edit.roots member, high⟩
  · rcases edit.protected_entry dOwned still with same | zero
    · rw [same]
      exact before
    · exact Or.inr zero

/-- As long as nothing is given back, frames stay in use. -/
theorem Edit.used (edit : Edit False device c c') (owned : c.Owned) {q : Nat}
    (used : FrameAlloc.Used c.alloc.bitmap q) : FrameAlloc.Used c'.alloc.bitmap q := by
  cases edit with
  | take run _ => exact ((owned.guarded.hands run).used q).mpr (Or.inl used)
  | grow member growth => exact (growth.grown owned member).used q used
  | unmap back | give back | trim back => exact back.elim
  | _ => exact used

theorem Edits.used (edits : Edits False device c c') (owned : c.Owned) {q : Nat}
    (used : FrameAlloc.Used c.alloc.bitmap q) : FrameAlloc.Used c'.alloc.bitmap q :=
  (edits.keeps (P := fun d => FrameAlloc.Used d.alloc.bitmap q) (fun edit dOwned before => edit.used dOwned before)
    owned used).2

/-- As long as nothing is given back, the frames taken were free before. -/
theorem Edits.fresh (edits : Edits False device c c') (owned : c.Owned) {f : Nat} (pending : f ∈ c'.pend) :
    f ∈ c.pend ∨ ¬FrameAlloc.Used c.alloc.bitmap f := by
  refine (edits.keeps (P := fun d => (∀ q, FrameAlloc.Used c.alloc.bitmap q → FrameAlloc.Used d.alloc.bitmap q) ∧
    ∀ f ∈ d.pend, f ∈ c.pend ∨ ¬FrameAlloc.Used c.alloc.bitmap f) ?_ owned ⟨fun _ => id, fun _ => Or.inl⟩).2.2 f pending
  rintro d d' edit dOwned ⟨kept, before⟩
  refine ⟨fun q used => edit.used dOwned (kept q used), fun g member => ?_⟩
  cases edit with
  | take run members =>
    rcases members g member with old | ⟨lower, upper⟩
    · exact before g old
    · exact Or.inr fun used => (dOwned.guarded.hands run).fresh g lower upper (kept g used)
  | fill | grow | device => exact before g member
  | plant _ _ fewer => exact before g (fewer g member).1
  | map _ _ _ _ _ _ _ fewer => exact before g (fewer g member).1
  | unmap back | give back | trim back => exact back.elim
  | drop fewer => exact before g (fewer g member)

end

end ProkaKernel
