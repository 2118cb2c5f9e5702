import ProkaKernel.FreeFrames
import ProkaKernel.Ownership

namespace ProkaKernel

/-- Growth of the tables on the way to one page, and of no others. -/
inductive PathGrowth (root page : Nat) (m : Mem) (a : FrameAlloc) : Mem → FrameAlloc → Prop
  | refl : PathGrowth root page m a m a
  | link {m' a' a'' p i rest t f e} : PathGrowth root page m a m' a' → pagePath page = p ++ i :: rest → rest ≠ [] →
      tableWalk m' root p = some t → m'.entry t i = 0 → a'.allocateContiguous 1 = some (f, a'') →
      pteFrame e = some f → e < 2 ^ 64 → PathGrowth root page m a ((m'.zeroFrame f).setEntry t i e) a''
  | widen {m' a' p i rest t e} : PathGrowth root page m a m' a' → pagePath page = p ++ i :: rest → rest ≠ [] →
      tableWalk m' root p = some t → m'.entry t i ≠ 0 → e / 8 = m'.entry t i / 8 →
      pteFrame e = pteFrame (m'.entry t i) → e < 2 ^ 64 → PathGrowth root page m a (m'.setEntry t i e) a'

/-- The tables that are missing on the way to a page. -/
def missingTables (m : Mem) (root page : Nat) : Nat :=
  [1, 2, 3].countP fun n => (tableWalk m root ((pagePath page).take n)).isNone

/-- Why `map_to` refuses a page: it is mapped, a huge page is in the way, or a
table is missing and there is no frame for it. -/
inductive Refusal (m : Mem) (a : FrameAlloc) (root page : Nat) : Prop
  | pageAlreadyMapped {p i t} : pagePath page = p ++ [i] → tableWalk m root p = some t → m.entry t i ≠ 0 →
      Refusal m a root page
  | parentEntryHugePage {p i rest t} : pagePath page = p ++ i :: rest → rest ≠ [] → tableWalk m root p = some t →
      m.entry t i ≠ 0 → pteFrame (m.entry t i) = none → Refusal m a root page
  | frameAllocationFailed {p i rest t} : pagePath page = p ++ i :: rest → rest ≠ [] → tableWalk m root p = some t →
      m.entry t i = 0 → (∀ f a', a.allocateContiguous 1 = some (f, a') → 2 ^ 40 ≤ f) → Refusal m a root page

section
variable {root page : Nat} {m m' : Mem} {a a' : FrameAlloc} {R pend : Set Nat} {p rest : List (Fin 512)} {i : Fin 512}

theorem path_low (bound : page < 2 ^ 35) (path : pagePath page = p ++ i :: rest) : LowPath (p ++ [i]) := by
  have low := pagePath_low bound
  rw [path, List.append_cons] at low
  exact lowPath_closed _ rest low

theorem path_short (path : pagePath page = p ++ i :: rest) (above : rest ≠ []) : p.length ≤ 2 := by
  have length : 4 = (p ++ i :: rest).length := congrArg List.length path
  have positive := List.length_pos_iff.mpr above
  rw [List.length_append, List.length_cons] at length
  omega

theorem path_take (path : pagePath page = p ++ i :: rest) : (pagePath page).take (p.length + 1) = p ++ [i] := by
  rw [path, List.append_cons, List.take_left' (by rw [List.length_append, List.length_singleton])]

theorem PathGrowth.growth (growth : PathGrowth root page m a m' a') (bound : page < 2 ^ 35) :
    TableGrowth root m a m' a' := by
  induction growth with
  | refl => exact .refl
  | link _ path above reached free run entry small ih =>
    exact ih.link (path_low bound path) (path_short path above) reached free run entry small
  | widen _ path above reached used same8 same small ih =>
    exact ih.widen (path_low bound path) (path_short path above) reached used same8 same small

theorem path_take_low (bound : page < 2 ^ 35) (n : Nat) : LowPath ((pagePath page).take n) := by
  refine lowPath_closed _ ((pagePath page).drop n) ?_
  rw [List.take_append_drop]
  exact pagePath_low bound

/-- A table that is built was missing, and nothing is below it yet. -/
theorem missingTables_link {t f e : Nat} (owns : Owns m a R pend) (member : root ∈ R) (bound : page < 2 ^ 35)
    (path : pagePath page = p ++ i :: rest) (above : rest ≠ []) (reached : tableWalk m root p = some t)
    (free : m.entry t i = 0) (unplaced : ¬Forest.Placed pteFrame LowPath m.entry R f) (entry : pteFrame e = some f)
    (small : e < 2 ^ 64) :
    missingTables m root page = missingTables ((m.zeroFrame f).setEntry t i e) root page + 1 := by
  have attach := link_attach member (path_low bound path) reached free unplaced entry small
  have short := path_short path above
  have gap : tableWalk m root ((pagePath page).take (p.length + 1)) = none := by
    rw [path_take path, tableWalk, Forest.walk_through reached, free, pteFrame_zero, Option.bind_none]
  have walks (n : Nat) (small : n ≤ 3) :
      (tableWalk ((m.zeroFrame f).setEntry t i e) root ((pagePath page).take n)).isNone =
        ((tableWalk m root ((pagePath page).take n)).isNone && !decide (n = p.length + 1)) := by
    have walk (y : Nat) :=
      owns.spaces.walk_attach lowPath_closed attach unplaced member (path_take_low bound n) y
    by_cases here : n = p.length + 1
    · subst here
      have built : tableWalk ((m.zeroFrame f).setEntry t i e) root ((pagePath page).take (p.length + 1)) = some f :=
        (walk f).mpr (Or.inr ⟨rfl, path_take path, rfl⟩)
      rw [built, gap, decide_eq_true rfl]
      rfl
    · rw [decide_eq_false here, Bool.not_false, Bool.and_true]
      refine congrArg Option.isNone (Option.ext fun y => (walk y).trans (or_iff_left ?_))
      rintro ⟨_, same, _⟩
      have length := congrArg List.length same
      rw [List.length_take, List.length_append, List.length_singleton, show (pagePath page).length = 4 from rfl] at length
      omega
  unfold missingTables
  simp only [List.countP_cons, List.countP_nil, walks 1 (by decide), walks 2 (by decide), walks 3 (by decide)]
  have position : p.length = 0 ∨ p.length = 1 ∨ p.length = 2 := by omega
  rcases position with len | len | len
  · simp [len] at gap ⊢
    simp [gap]
  · simp [len] at gap ⊢
    simp [gap]
    omega
  · simp [len] at gap ⊢
    simp [gap]
    omega

/-- A table on the way is missing if the entry for it is free. -/
theorem missingTables_pos {t : Nat} (path : pagePath page = p ++ i :: rest) (above : rest ≠ [])
    (reached : tableWalk m root p = some t) (free : m.entry t i = 0) : 0 < missingTables m root page := by
  have short := path_short path above
  have member : p.length + 1 ∈ [1, 2, 3] := by
    simp only [List.mem_cons, List.not_mem_nil, or_false]
    omega
  refine List.countP_pos_iff.mpr ⟨p.length + 1, member, ?_⟩
  rw [path_take path, tableWalk, Forest.walk_through reached, free, pteFrame_zero, Option.bind_none]
  rfl

/-- No table is missing on the way to a last entry. -/
theorem LastEntry.missingTables {t : Nat} (last : LastEntry m root page p i t) : missingTables m root page = 0 := by
  have length : 4 = (p ++ [i]).length := congrArg List.length last.path
  rw [List.length_append, List.length_singleton] at length
  refine List.countP_eq_zero.mpr fun n member missing => ?_
  have small : n ≤ p.length := by
    simp only [List.mem_cons, List.not_mem_nil, or_false] at member
    omega
  have reached := last.reached
  rw [← List.take_append_drop n p, tableWalk, Forest.walk_append] at reached
  rw [last.path, List.take_append_of_le_length small] at missing
  rw [show Forest.walk pteFrame m.entry root (p.take n) = none from Option.isNone_iff_eq_none.mp missing] at reached
  cases reached

/-- The tables stay when the page is unmapped. -/
theorem LastEntry.unmapped {t f : Nat} (last : LastEntry m root page p i t) (owns : Owns m a R pend) (member : root ∈ R)
    (bound : page < 2 ^ 35) (entry : pteFrame (m.entry t i) = some f) : LastEntry (m.setEntry t i 0) root page p i t := by
  have low := last.low bound
  have detach := (owns.clear_lower member low last.reached entry fun j deep => absurd deep (last.leaf j)).1
  refine ⟨last.path, (owns.spaces.walk_detach lowPath_closed detach member (lowPath_closed p [i] low) t).mpr
    ⟨last.reached, fun same => ?_⟩⟩
  have length := congrArg List.length same.2
  rw [List.length_append, List.length_singleton] at length
  omega

/-- Every table that is built takes one frame. -/
theorem PathGrowth.takes (growth : PathGrowth root page m a m' a') (owns : Owns m a R pend) (member : root ∈ R)
    (bound : page < 2 ^ 35) : ∃ links, FrameAlloc.takeFrames links a = some a' ∧
      missingTables m root page = missingTables m' root page + links := by
  induction growth with
  | refl => exact ⟨0, rfl, (Nat.add_zero _).symm⟩
  | @link m' a' a'' p i rest t f e before path above reached free run entry small ih =>
    obtain ⟨links, frames, tables⟩ := ih
    have grown := (before.growth bound).grown owns member
    have unplaced : ¬Forest.Placed pteFrame LowPath m'.entry R f := fun placed =>
      (grown.owns.guarded.hands run).fresh f (Nat.le_refl f) (Nat.lt_succ_self f) (grown.owns.spaces.placed f placed).1
    have built := missingTables_link grown.owns member bound path above reached free unplaced entry small
    exact ⟨links + 1, FrameAlloc.takeFrames_next frames run, by omega⟩
  | @widen m' a' p i rest t e before path above reached used same8 same small ih =>
    obtain ⟨links, frames, tables⟩ := ih
    have walks (q : List (Fin 512)) : tableWalk (m'.setEntry t i e) root q = tableWalk m' root q :=
      Forest.walk_congr fun _ j _ u _ _ => entry_widen same small u j
    refine ⟨links, frames, tables.trans ?_⟩
    unfold missingTables
    simp only [walks]

theorem PathGrowth.counts (growth : PathGrowth root page m a m' a') (owns : Owns m a R pend) (member : root ∈ R)
    (bound : page < 2 ^ 35) : ∃ links, a.freeFrames = a'.freeFrames + links ∧
      missingTables m root page = missingTables m' root page + links := by
  obtain ⟨links, frames, tables⟩ := growth.takes owns member bound
  exact ⟨links, FrameAlloc.freeFrames_take frames, tables⟩

end

/-- The paths of the tables below the root on the way to a page. -/
def tablePaths (page : Nat) : List (List (Fin 512)) := [1, 2, 3].map (pagePath page).take

/-- The tables that are missing on the way to `n` pages. -/
def tablesFor (m : Mem) (root base n : Nat) : Nat :=
  (((List.range' base n).flatMap tablePaths).toFinset.filter fun p => (tableWalk m root p).isNone = true).card

section
variable {root page base n : Nat} {m m' : Mem} {a a' : FrameAlloc} {R pend : Set Nat} {p rest : List (Fin 512)} {i : Fin 512}

theorem mem_tablePaths : p ∈ tablePaths page ↔ ∃ n, 1 ≤ n ∧ n ≤ 3 ∧ p = (pagePath page).take n := by
  unfold tablePaths
  rw [List.mem_map]
  constructor
  · rintro ⟨n, member, rfl⟩
    simp only [List.mem_cons, List.not_mem_nil, or_false] at member
    exact ⟨n, by omega, by omega, rfl⟩
  · rintro ⟨n, lower, upper, rfl⟩
    refine ⟨n, ?_, rfl⟩
    simp only [List.mem_cons, List.not_mem_nil, or_false]
    omega

theorem path_mem_tablePaths (path : pagePath page = p ++ i :: rest) (above : rest ≠ []) : p ++ [i] ∈ tablePaths page := by
  have short := path_short path above
  exact mem_tablePaths.mpr ⟨p.length + 1, by omega, by omega, (path_take path).symm⟩

/-- Only tables on the way are built. -/
theorem PathGrowth.walk_new {f : Nat} (growth : PathGrowth root page m a m' a') (owns : Owns m a R pend) (member : root ∈ R)
    (bound : page < 2 ^ 35) (low : LowPath p) (reached : tableWalk m' root p = some f) :
    tableWalk m root p = some f ∨ p ∈ tablePaths page := by
  induction growth with
  | refl => exact Or.inl reached
  | @link m' a' a'' q i rest t g e before path above there free run entry small ih =>
    have grown := (before.growth bound).grown owns member
    have unplaced : ¬Forest.Placed pteFrame LowPath m'.entry R g := fun placed =>
      (grown.owns.guarded.hands run).fresh g (Nat.le_refl g) (Nat.lt_succ_self g) (grown.owns.spaces.placed g placed).1
    have attach := link_attach member (path_low bound path) there free unplaced entry small
    rcases (grown.owns.spaces.walk_attach lowPath_closed attach unplaced member low f).mp reached with old | ⟨_, rfl, _⟩
    · exact ih old
    · exact Or.inr (path_mem_tablePaths path above)
  | @widen m' a' q i rest t e before path above there used same8 same small ih =>
    have walk : tableWalk (m'.setEntry t i e) root p = tableWalk m' root p :=
      Forest.walk_congr fun _ j _ u _ _ => entry_widen same small u j
    exact ih (walk.symm.trans reached)

theorem missingTables_eq (m : Mem) (root page : Nat) :
    missingTables m root page = ((tablePaths page).toFinset.filter fun p => (tableWalk m root p).isNone = true).card := by
  have nodup : (tablePaths page).Nodup := by
    refine List.Nodup.map_on (fun x inside y inside' same => ?_) (by decide)
    have length := congrArg List.length same
    simp only [List.mem_cons, List.not_mem_nil, or_false] at inside inside'
    rw [List.length_take, List.length_take, show (pagePath page).length = 4 from rfl] at length
    omega
  rw [← List.toFinset_filter, List.toFinset_card_of_nodup (nodup.filter _), ← List.countP_eq_length_filter, tablePaths,
    List.countP_map]
  rfl

/-- The next page needs the tables that it does not share with the pages
before it. -/
theorem card_next (need : List (Fin 512) → Prop) [DecidablePred need] (old : List (List (Fin 512)))
    (built : ∀ p ∈ tablePaths page, tableWalk m' root p = none ↔ need p ∧ p ∉ old) :
    ((old ++ tablePaths page).toFinset.filter need).card =
      (old.toFinset.filter need).card + missingTables m' root page := by
  have new : (tablePaths page).toFinset.filter (fun p => (tableWalk m' root p).isNone = true) =
      (tablePaths page).toFinset.filter need \ old.toFinset.filter need := by
    ext p
    simp only [Finset.mem_filter, Finset.mem_sdiff, List.mem_toFinset, Option.isNone_iff_eq_none]
    constructor
    · rintro ⟨inside, missing⟩
      obtain ⟨before, fresh⟩ := (built p inside).mp missing
      exact ⟨⟨inside, before⟩, fun old => fresh old.1⟩
    · rintro ⟨⟨inside, before⟩, fresh⟩
      exact ⟨inside, (built p inside).mpr ⟨before, fun old => fresh ⟨old, before⟩⟩⟩
  rw [missingTables_eq, new, List.toFinset_append, Finset.filter_union, ← Finset.union_sdiff_self_eq_union,
    Finset.card_union_of_disjoint Finset.disjoint_sdiff]

theorem tablesFor_succ (built : ∀ p ∈ tablePaths (base + n), tableWalk m' root p = none ↔
      tableWalk m root p = none ∧ p ∉ (List.range' base n).flatMap tablePaths) :
    tablesFor m root base (n + 1) = tablesFor m root base n + missingTables m' root (base + n) := by
  rw [tablesFor, tablesFor, List.range'_1_concat, List.flatMap_append, List.flatMap_singleton]
  refine card_next _ _ fun p inside => ?_
  rw [Option.isNone_iff_eq_none]
  exact built p inside

/-- The tables below the root on the way to some pages. -/
def tableCount (pages : List Nat) : Nat := (pages.flatMap tablePaths).toFinset.card

theorem tableCount_next {pages : List Nat}
    (built : ∀ p ∈ tablePaths page, tableWalk m' root p = none ↔ p ∉ pages.flatMap tablePaths) :
    tableCount (pages ++ [page]) = tableCount pages + missingTables m' root page := by
  have next := card_next (fun _ => True) (pages.flatMap tablePaths) fun p inside =>
    (built p inside).trans (and_iff_right trivial).symm
  rw [Finset.filter_true, Finset.filter_true] at next
  rw [tableCount, tableCount, List.flatMap_append, List.flatMap_singleton]
  exact next

theorem tableCount_append_le (pages more : List Nat) : tableCount pages ≤ tableCount (pages ++ more) := by
  unfold tableCount
  rw [List.flatMap_append, List.toFinset_append]
  exact Finset.card_le_card Finset.subset_union_left

theorem tablesFor_mono (m : Mem) (root base : Nat) {n n' : Nat} (le : n ≤ n') :
    tablesFor m root base n ≤ tablesFor m root base n' := by
  refine Finset.card_le_card (Finset.filter_subset_filter _ fun p inside => ?_)
  simp only [List.mem_toFinset, List.mem_flatMap, List.mem_range'_1] at inside ⊢
  obtain ⟨page, ⟨lower, upper⟩, there⟩ := inside
  exact ⟨page, ⟨lower, by omega⟩, there⟩

end

/-- The mapper with the errors it documents: `map_to` builds the tables that
are missing on the way, and refuses a page only for one of its reasons; a
mapped page can be unmapped. -/
structure ExactMapper extends PageMapper where
  mapTo_exact : ∀ {m a root page frame flags done m' a'}, Owns m a {root} ∅ → page < 2 ^ 35 → PageFlags.Ok flags →
    frame < 2 ^ 40 → mapTo m a root page frame flags = (done, m', a') →
    ∃ middle, PathGrowth root page m a middle a' ∧
      ((done = true ∧ ∃ p i t, LastEntry middle root page p i t ∧ middle.entry t i = 0 ∧
        m' = middle.setEntry t i (pte frame flags)) ∨
      (done = false ∧ m' = middle ∧ Refusal middle a' root page))
  unmap_exact : ∀ {m root page frame}, page < 2 ^ 35 → translate m root page = some frame →
    ∃ m', unmap m root page = (some frame, m')

end ProkaKernel
