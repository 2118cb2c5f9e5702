import ProkaKernel.Kernel
import ProkaKernel.TablePath

namespace ProkaKernel

namespace FourLevel

/-- `create_next_table`: a free entry gets a blank table, a used one gets the
flags of its children in addition to its own. -/
def nextTable (parent : Nat) (m : Mem) (a : FrameAlloc) (t : Nat) (i : Fin 512) : Option Nat × Mem × FrameAlloc :=
  if m.entry t i = 0 then
    match a.allocateContiguous 1 with
    | none => (none, m, a)
    | some (f, a') =>
      if f < 2 ^ 40 then (some f, (m.zeroFrame f).setEntry t i (pte f parent), a') else (none, m, a)
  else
    match pteFrame (m.entry t i) with
    | none => (none, m, a)
    | some f => (some f, m.setEntry t i (m.entry t i ||| parent), a)

/-- The way down to the table of the last level. -/
def descend (parent : Nat) : List (Fin 512) → Mem → FrameAlloc → Nat → Option Nat × Mem × FrameAlloc
  | [], m, a, t => (some t, m, a)
  | i :: rest, m, a, t =>
    match nextTable parent m a t i with
    | (none, m', a') => (none, m', a')
    | (some t', m', a') => descend parent rest m' a' t'

/-- The upper three indices of a page, and the last one. -/
def tablePath (page : Nat) : List (Fin 512) :=
  [Fin.ofNat 512 (page / 512 ^ 3), Fin.ofNat 512 (page / 512 ^ 2), Fin.ofNat 512 (page / 512)]

def lastIndex (page : Nat) : Fin 512 := Fin.ofNat 512 page

theorem pagePath_eq (page : Nat) : pagePath page = tablePath page ++ [lastIndex page] := rfl

/-- `map_to`: tables on the way get the present, writable and user bits of the
page. -/
def mapTo (m : Mem) (a : FrameAlloc) (root page frame flags : Nat) : Bool × Mem × FrameAlloc :=
  match descend (flags % 8) (tablePath page) m a root with
  | (none, m', a') => (false, m', a')
  | (some t, m', a') =>
    if m'.entry t (lastIndex page) = 0 ∧ frame < 2 ^ 40 then
      (true, m'.setEntry t (lastIndex page) (pte frame flags), a')
    else (false, m', a')

def unmap (m : Mem) (root page : Nat) : Option Nat × Mem :=
  match tableWalk m root (tablePath page) with
  | none => (none, m)
  | some t =>
    match pteFrame (m.entry t (lastIndex page)) with
    | none => (none, m)
    | some frame => (some frame, m.setEntry t (lastIndex page) 0)

section
variable {root page frame flags parent : Nat} {m m' m0 : Mem} {a a' a0 : FrameAlloc} {p : List (Fin 512)}
  {i : Fin 512} {t : Nat} {result : Option Nat}

theorem parent_ok (ok : PageFlags.Ok flags) : PageFlags.Ok (flags % 8) := by
  obtain ⟨present, _⟩ := ok
  exact ⟨by omega, by omega, by omega, by omega⟩

theorem or_div_eight {e : Nat} (small : parent < 8) : (e ||| parent) / 2 ^ 3 = e / 2 ^ 3 := by
  rw [Nat.or_div_two_pow, Nat.div_eq_of_lt small, Nat.or_zero]

theorem pteFrame_or {e : Nat} (small : parent < 8) (present : pteFrame e ≠ none) :
    pteFrame (e ||| parent) = pteFrame e := by
  have high := or_div_eight (e := e) small
  have low : e % 2 = 1 := by
    by_contra even
    exact present (if_neg fun both => even both.1)
  have odd : (e ||| parent) % 2 ^ 1 = 1 := by
    rw [Nat.or_mod_two_pow, Nat.pow_one, low]
    rcases Nat.mod_two_eq_zero_or_one parent with zero | one
    · rw [zero]
      rfl
    · rw [one]
      rfl
  have flagBit : (e ||| parent) / 128 = e / 128 := by omega
  have address : (e ||| parent) / 4096 = e / 4096 := by omega
  unfold pteFrame
  rw [flagBit, address, low, show (e ||| parent) % 2 = 1 from odd]

/-- All that `create_next_table` can do: nothing, the link of a blank table, or
more flags on the entry for a table. -/
theorem nextTable_cases (run : nextTable parent m a t i = (result, m', a')) :
    (result = none ∧ m' = m ∧ a' = a ∧
      (m.entry t i = 0 ∧ (∀ f a1, a.allocateContiguous 1 = some (f, a1) → 2 ^ 40 ≤ f) ∨
        m.entry t i ≠ 0 ∧ pteFrame (m.entry t i) = none)) ∨
    (∃ f, result = some f ∧ m.entry t i = 0 ∧ a.allocateContiguous 1 = some (f, a') ∧ f < 2 ^ 40 ∧
      m' = (m.zeroFrame f).setEntry t i (pte f parent)) ∨
    ∃ f, result = some f ∧ m.entry t i ≠ 0 ∧ pteFrame (m.entry t i) = some f ∧
      m' = m.setEntry t i (m.entry t i ||| parent) ∧ a' = a := by
  unfold nextTable at run
  split at run
  · rename_i free
    cases given : a.allocateContiguous 1 with
    | none =>
      rw [given] at run
      cases run
      exact Or.inl ⟨rfl, rfl, rfl, Or.inl ⟨free, fun f a1 some => nomatch some⟩⟩
    | some out =>
      obtain ⟨f, a1⟩ := out
      rw [given] at run
      dsimp only at run
      split at run
      · rename_i inRam
        cases run
        exact Or.inr (Or.inl ⟨f, rfl, free, rfl, inRam, rfl⟩)
      · rename_i outside
        cases run
        refine Or.inl ⟨rfl, rfl, rfl, Or.inl ⟨free, fun g a' same => ?_⟩⟩
        cases same
        exact Nat.le_of_not_lt outside
  · rename_i used
    cases entry : pteFrame (m.entry t i) with
    | none =>
      rw [entry] at run
      cases run
      exact Or.inl ⟨rfl, rfl, rfl, Or.inr ⟨used, rfl⟩⟩
    | some f =>
      rw [entry] at run
      cases run
      exact Or.inr (Or.inr ⟨f, rfl, used, rfl, rfl, rfl⟩)

/-- The next table on the way to a page, or the reason why there is none. -/
theorem nextTable_path {rest : List (Fin 512)} (owns : Owns m0 a0 {root} ∅) (growth : PathGrowth root page m0 a0 m a)
    (bound : page < 2 ^ 35) (path : pagePath page = p ++ i :: rest) (above : rest ≠ []) (ok : PageFlags.Ok parent)
    (small : parent < 8) (reached : tableWalk m root p = some t) (run : nextTable parent m a t i = (result, m', a')) :
    PathGrowth root page m0 a0 m' a' ∧ (result = none → Refusal m' a' root page) ∧
      ∀ f, result = some f → tableWalk m' root (p ++ [i]) = some f := by
  have member : root ∈ ({root} : Set Nat) := Set.mem_singleton root
  have low := path_low bound path
  have grown := (growth.growth bound).grown owns member
  rcases nextTable_cases run with ⟨rfl, rfl, rfl, why⟩ | ⟨f, rfl, free, given, inRam, rfl⟩ | ⟨f, rfl, used, entry, rfl, rfl⟩
  · refine ⟨growth, fun _ => ?_, fun _ none => nomatch none⟩
    rcases why with ⟨free, empty⟩ | ⟨used, huge⟩
    · exact .frameAllocationFailed path above reached free empty
    · exact .parentEntryHugePage path above reached used huge
  · have entry := pteFrame_pte inRam ok
    have fresh : ¬Forest.Placed pteFrame LowPath m.entry {root} f := fun placed =>
      (grown.owns.guarded.hands given).fresh f (Nat.le_refl f) (Nat.lt_succ_self f) (grown.owns.spaces.placed f placed).1
    have attach := link_attach member low reached free fresh entry (pte_lt inRam ok)
    refine ⟨growth.link path above reached free given entry (pte_lt inRam ok), (nomatch ·), fun g same => ?_⟩
    cases same
    exact (grown.owns.spaces.walk_attach lowPath_closed attach fresh member low f).mpr (Or.inr ⟨rfl, rfl, rfl⟩)
  · have same : pteFrame (m.entry t i ||| parent) = pteFrame (m.entry t i) :=
      pteFrame_or small (by rw [entry]; exact Option.some_ne_none f)
    have fits : m.entry t i ||| parent < 2 ^ 64 :=
      Nat.or_lt_two_pow (m.entry_lt t i) (Nat.lt_trans small (by decide))
    refine ⟨growth.widen path above reached used (or_div_eight small) same fits, (nomatch ·), fun g equal => ?_⟩
    cases equal
    have walks : tableWalk (m.setEntry t i (m.entry t i ||| parent)) root (p ++ [i]) = tableWalk m root (p ++ [i]) :=
      Forest.walk_congr fun _ j _ u _ _ => entry_widen same fits u j
    rw [walks, tableWalk, Forest.walk_through reached, entry]
    rfl

theorem descend_path {rest : List (Fin 512)} (path : List (Fin 512)) (owns : Owns m0 a0 {root} ∅)
    (growth : PathGrowth root page m0 a0 m a) (bound : page < 2 ^ 35) (whole : pagePath page = p ++ path ++ rest)
    (above : rest ≠ []) (ok : PageFlags.Ok parent) (small : parent < 8) (reached : tableWalk m root p = some t)
    (run : descend parent path m a t = (result, m', a')) :
    PathGrowth root page m0 a0 m' a' ∧ (result = none → Refusal m' a' root page) ∧
      ∀ f, result = some f → tableWalk m' root (p ++ path) = some f := by
  induction path generalizing p m a t with
  | nil =>
    cases run
    refine ⟨growth, (nomatch ·), fun f same => ?_⟩
    cases same
    rw [List.append_nil]
    exact reached
  | cons i tail ih =>
    have here : pagePath page = p ++ i :: (tail ++ rest) := by rw [whole, List.append_assoc, List.cons_append]
    have more : tail ++ rest ≠ [] := fun none => above (List.append_eq_nil_iff.mp none).2
    cases next : nextTable parent m a t i with
    | mk found both =>
      obtain ⟨m1, a1⟩ := both
      obtain ⟨growth1, refused, reached1⟩ := nextTable_path owns growth bound here more ok small reached next
      rw [descend, next] at run
      cases found with
      | none =>
        cases run
        exact ⟨growth1, refused, fun _ none => nomatch none⟩
      | some t1 =>
        rw [List.append_cons] at whole ⊢
        exact ih growth1 whole (reached1 t1 rfl) run

/-- The two ways in which `mapTo` ends. -/
theorem mapTo_cases {done : Bool} (owns : Owns m a {root} ∅) (bound : page < 2 ^ 35) (ok : PageFlags.Ok flags)
    (run : mapTo m a root page frame flags = (done, m', a')) :
    ∃ middle, PathGrowth root page m a middle a' ∧
      ((done = true ∧ ∃ p i t, LastEntry middle root page p i t ∧ middle.entry t i = 0 ∧ frame < 2 ^ 40 ∧
        m' = middle.setEntry t i (pte frame flags)) ∨
      (done = false ∧ m' = middle ∧ (frame < 2 ^ 40 → Refusal middle a' root page))) := by
  unfold mapTo at run
  cases down : descend (flags % 8) (tablePath page) m a root with
  | mk found both =>
    obtain ⟨m1, a1⟩ := both
    obtain ⟨growth, refused, reached⟩ := descend_path (p := []) (tablePath page) owns .refl bound (pagePath_eq page)
      (List.cons_ne_nil _ _) (parent_ok ok) (Nat.mod_lt flags (by decide)) rfl down
    rw [down] at run
    cases found with
    | none =>
      cases run
      exact ⟨m', growth, Or.inr ⟨rfl, rfl, fun _ => refused rfl⟩⟩
    | some t =>
      dsimp only at run
      split at run
      · rename_i free
        cases run
        exact ⟨m1, growth, Or.inl ⟨rfl, _, _, t, ⟨pagePath_eq page, reached t rfl⟩, free.1, free.2, rfl⟩⟩
      · rename_i used
        cases run
        refine ⟨m', growth, Or.inr ⟨rfl, rfl, fun inRam => ?_⟩⟩
        exact .pageAlreadyMapped (pagePath_eq page) (reached t rfl) fun free => used ⟨free, inRam⟩

end

/-- Whether all entries of a table are unused. -/
def unused (m : Mem) (t : Nat) : Bool := (List.finRange 512).all fun j => m.entry t j == 0

/-- The loop of `clean_up` over the entries of a table. A child that is empty
after its own cleaning is taken off, and its frame is given back. -/
def cleanEntries (child : Mem → FrameAlloc → Nat → Bool × Mem × FrameAlloc) (t : Nat) :
    List (Fin 512) → Mem → FrameAlloc → Mem × FrameAlloc
  | [], m, a => (m, a)
  | i :: rest, m, a =>
    match pteFrame (m.entry t i) with
    | none => cleanEntries child t rest m a
    | some f =>
      match child m a f with
      | (empty, m', a') =>
        if empty = true ∧ pteFrame (m'.entry t i) = some f then
          cleanEntries child t rest (m'.setEntry t i 0) (a'.deallocateContiguous f 1)
        else cleanEntries child t rest m' a'

/-- `clean_up` below a table that has the given number of levels under it. -/
def cleanTable : Nat → Mem → FrameAlloc → Nat → Bool × Mem × FrameAlloc
  | 0, m, a, t => (unused m t, m, a)
  | level + 1, m, a, t =>
    match cleanEntries (cleanTable level) t (List.finRange 512) m a with
    | (m', a') => (unused m' t, m', a')

section
variable {root t level : Nat} {m m' : Mem} {a a' : FrameAlloc} {p : List (Fin 512)} {empty : Bool}

theorem unused_entry (blank : unused m t = true) (j : Fin 512) : m.entry t j = 0 :=
  eq_of_beq (List.all_eq_true.mp blank j (List.mem_finRange j))

/-- The table is still on its place, or it has become empty. -/
def Near (root : Nat) (p : List (Fin 512)) (m : Mem) (t : Nat) : Prop :=
  tableWalk m root p = some t ∨ ∀ j, m.entry t j = 0

/-- Only the way to an empty table is ever cut. -/
theorem Near.trim {r : Nat} (near : Near r p m t) (trim : TableTrim root m a m' a') : Near r p m' t := by
  induction trim with
  | refl => exact near
  | @prune m1 _ _ i u f _ _ _ entry blank ih =>
    have cleared (s : Nat) (j : Fin 512) (zero : m1.entry s j = 0) : (m1.setEntry u i 0).entry s j = 0 :=
      (m1.entry_clear u i s j).elim (fun same => same.trans zero) id
    rcases ih with reached | empty
    · have others (s : Nat) (j : Fin 512) (other : ¬(s = u ∧ j = i)) :
          pteFrame ((m1.setEntry u i 0).entry s j) = pteFrame (m1.entry s j) := by
        rw [Mem.entry_setEntry_of_ne _ _ other]
      have cut := Forest.walk_cut entry (fun j => by rw [blank j, pteFrame_zero]) others reached
      rcases cut with kept | rfl
      · exact Or.inl kept
      · exact Or.inr fun j => cleared t j (blank j)
    · exact Or.inr fun j => cleared t j (empty j)

/-- What the cleaning below a table has to do. -/
def Cleans (root level : Nat) (clean : Mem → FrameAlloc → Nat → Bool × Mem × FrameAlloc) : Prop :=
  ∀ {p m a t empty m' a'}, p.length + level ≤ 3 → Near root p m t → clean m a t = (empty, m', a') →
    TableTrim root m a m' a' ∧ (empty = true → ∀ j, m'.entry t j = 0)

theorem cleanEntries_trims {child : Mem → FrameAlloc → Nat → Bool × Mem × FrameAlloc} (cleans : Cleans root level child)
    (entries : List (Fin 512)) (short : p.length + (level + 1) ≤ 3) (near : Near root p m t)
    (run : cleanEntries child t entries m a = (m', a')) : TableTrim root m a m' a' := by
  induction entries generalizing m a with
  | nil =>
    cases run
    exact .refl
  | cons i rest ih =>
    unfold cleanEntries at run
    split at run
    · exact ih near run
    · rename_i f entry
      have reached : tableWalk m root p = some t := by
        rcases near with reached | empty
        · exact reached
        · rw [empty i, pteFrame_zero] at entry
          cases entry
      have below : Near root (p ++ [i]) m f := by
        refine Or.inl ?_
        rw [tableWalk, Forest.walk_through reached, entry]
        rfl
      split at run
      rename_i empty m1 a1 inner
      obtain ⟨trim, blank⟩ := cleans (by rw [List.length_append, List.length_singleton]; omega) below inner
      have near1 := near.trim trim
      split at run
      · rename_i found
        rcases near1 with reached1 | gone
        · have pruned := trim.prune (by omega) reached1 found.2 (blank found.1)
          exact pruned.trans (ih (near.trim pruned) run)
        · have none := found.2
          rw [gone i, pteFrame_zero] at none
          cases none
      · exact trim.trans (ih near1 run)

theorem cleanTable_trims (root level : Nat) : Cleans root level (cleanTable level) := by
  induction level with
  | zero =>
    intro p m a t empty m' a' _ _ run
    unfold cleanTable at run
    obtain ⟨flag, both⟩ := Prod.mk.inj run
    obtain ⟨rfl, rfl⟩ := Prod.mk.inj both
    exact ⟨.refl, fun blank => unused_entry (flag.trans blank)⟩
  | succ level ih =>
    intro p m a t empty m' a' short near run
    unfold cleanTable at run
    split at run
    rename_i m1 a1 inner
    simp only [Prod.mk.injEq] at run
    obtain ⟨flag, rfl, rfl⟩ := run
    exact ⟨cleanEntries_trims ih _ short near inner, fun blank => unused_entry (flag.trans blank)⟩

end

/-- The page mapper of the crate, on pages of the lower half. -/
def mapper : PageMapper where
  mapTo := mapTo
  unmap := unmap
  cleanUp m a root := (cleanTable 3 m a root).2
  mapTo_ok := by
    intro m a root page frame flags m' a' owns bound ok run
    obtain ⟨middle, growth, ⟨_, p, i, t, mapped⟩ | ⟨refused, _⟩⟩ := mapTo_cases owns bound ok run
    · exact ⟨middle, p, i, t, growth.growth bound, mapped⟩
    · cases refused
  mapTo_err := by
    intro m a root page frame flags m' a' owns bound ok run
    obtain ⟨middle, growth, ⟨mapped, _⟩ | ⟨_, rfl, _⟩⟩ := mapTo_cases owns bound ok run
    · cases mapped
    · exact growth.growth bound
  unmap_ok := by
    intro m root page frame m' bound run
    unfold unmap at run
    split at run
    · cases run
    · rename_i t reached
      split at run
      · cases run
      · rename_i f entry
        cases run
        exact ⟨_, _, t, ⟨pagePath_eq page, reached⟩, entry, rfl⟩
  unmap_err := by
    intro m root page m' bound run
    unfold unmap at run
    repeat' split at run
    all_goals cases run
    all_goals rfl
  cleanUp_trims := by
    intro m a root m' a' _ run
    cases result : cleanTable 3 m a root with
    | mk empty both =>
      rw [result] at run
      cases run
      exact (cleanTable_trims root 3 (p := []) (Nat.le_refl 3) (Or.inl rfl) result).1

theorem unmap_mapped {m : Mem} {root page frame : Nat} (mapped : translate m root page = some frame) :
    ∃ m', unmap m root page = (some frame, m') := by
  unfold unmap
  cases reached : tableWalk m root (tablePath page) with
  | none =>
    unfold translate at mapped
    rw [pagePath_eq, tableWalk, Forest.walk_append, show Forest.walk pteFrame m.entry root (tablePath page) = none from reached]
      at mapped
    cases mapped
  | some t =>
    have leaf := LastEntry.translate ⟨pagePath_eq page, reached⟩
    rw [mapped] at leaf
    dsimp only
    rw [← leaf]
    exact ⟨_, rfl⟩

section
attribute [local irreducible] mapTo unmap

theorem mapper_mapTo : mapper.mapTo = mapTo := rfl

theorem mapper_unmap : mapper.unmap = unmap := rfl

end

def exactMapper : ExactMapper where
  toPageMapper := mapper
  mapTo_exact owns bound ok inRam run := by
    rw [mapper_mapTo] at run
    obtain ⟨middle, growth, kind⟩ := mapTo_cases owns bound ok run
    refine ⟨middle, growth, kind.imp ?_ ?_⟩
    · rintro ⟨mapped, p, i, t, last, free, _, written⟩
      exact ⟨mapped, p, i, t, last, free, written⟩
    · rintro ⟨refused, same, why⟩
      exact ⟨refused, same, why inRam⟩
  unmap_exact _ mapped := by
    rw [mapper_unmap]
    exact unmap_mapped mapped

end FourLevel

section SmallMachine
open FrameAlloc

/-- The allocator of a machine with 32 MiB of free memory. -/
def smallAlloc : FrameAlloc where
  bitmap := List.replicate 960 255 ++ 1 :: List.replicate 63 0
  maxPage := 0x2000
  reserved := usedPage
  selfUsedPage := 1
  pos := 0x1e01

/-- The allocator of a machine whose memory is free up to the given page: the
kernel's pages and the page of the bitmap itself are marked. -/
def ramAlloc (pages : Nat) : FrameAlloc where
  bitmap := List.replicate 960 255 ++ 1 :: List.replicate (divCeil pages 8 - 961) 0
  maxPage := pages
  reserved := usedPage
  selfUsedPage := 1
  pos := 0x1e01

theorem ramAlloc_test (pages i : Nat) : Bitmap.test (ramAlloc pages).bitmap i = decide (i < 0x1e01) := by
  unfold Bitmap.test ramAlloc
  dsimp only
  rcases Nat.lt_trichotomy (i / 8) 960 with below | here | above
  · rw [List.getD_append _ _ _ _ (by rw [List.length_replicate]; exact below), List.getD_replicate _ below]
    have bits : ∀ j, j < 8 → Nat.testBit 255 j = true := by decide
    rw [decide_eq_true (by omega : i < 0x1e01)]
    exact bits _ (Nat.mod_lt _ (by decide))
  · rw [List.getD_append_right _ _ _ _ (by rw [List.length_replicate]; omega), List.length_replicate, here]
    have bits : ∀ j, j < 8 → Nat.testBit 1 j = decide (j = 0) := by decide
    refine (bits _ (Nat.mod_lt _ (by decide))).trans (decide_eq_decide.mpr ?_)
    omega
  · rw [List.getD_append_right _ _ _ _ (by rw [List.length_replicate]; omega), List.length_replicate]
    obtain ⟨k, eq⟩ : ∃ k, i / 8 - 960 = k + 1 := ⟨i / 8 - 961, by omega⟩
    rw [eq, List.getD_cons_succ, List.getD_eq_getElem?_getD, List.getElem?_replicate,
      decide_eq_false (by omega : ¬i < 0x1e01)]
    split <;> exact Nat.zero_testBit _

theorem ramAlloc_length {pages : Nat} (lower : 0x1e01 ≤ pages) : (ramAlloc pages).bitmap.length = divCeil pages 8 := by
  simp only [ramAlloc, List.length_append, List.length_cons, List.length_replicate]
  unfold divCeil
  split <;> omega

theorem ramAlloc_used (pages q : Nat) (inside : q < pages) (lower : 0x1e01 ≤ pages) :
    Used (ramAlloc pages).bitmap q ↔ q < 0x1e01 := by
  have bit : ¬divCeil pages 8 ≤ q / 8 := by
    unfold divCeil
    split <;> omega
  rw [used_iff, ramAlloc_length lower, or_iff_right bit, ramAlloc_test, decide_eq_true_iff]

theorem ramAlloc_sized {pages : Nat} (lower : 0x1e01 ≤ pages) : (ramAlloc pages).Sized := by
  intro q inside
  have bound : q < pages := inside
  rw [ramAlloc_length lower]
  unfold divCeil
  split <;> omega

theorem ramAlloc_fresh {pages : Nat} (lower : 0x1e01 ≤ pages) : (ramAlloc pages).FreshAbove := fun q above inside used =>
  absurd ((ramAlloc_used pages q inside lower).mp used) (Nat.not_lt.mpr above)

theorem ramAlloc_free {pages : Nat} (lower : 0x1e01 ≤ pages) : (ramAlloc pages).freeFrames + 0x1e01 = pages := by
  have free : (ramAlloc pages).freeSet = Finset.Ico 0x1e01 pages := by
    ext q
    rw [mem_freeSet, Finset.mem_Ico]
    constructor
    · rintro ⟨inside, unused⟩
      exact ⟨Nat.le_of_not_lt fun below => unused ((ramAlloc_used pages q inside lower).mpr below), inside⟩
    · rintro ⟨above, inside⟩
      exact ⟨inside, fun used => absurd ((ramAlloc_used pages q inside lower).mp used) (Nat.not_lt.mpr above)⟩
  rw [freeFrames, free, Nat.card_Ico]
  omega

theorem init_ram {length : UInt64} {pages : Nat} (top : maxPhysAddr [⟨0, length, .freeRAM⟩] = some (pages * 4096))
    (lower : 0x1e01 ≤ pages) (upper : pages ≤ 0x8000) :
    FrameAlloc.init [⟨0, length, .freeRAM⟩] usedPage = some (ramAlloc pages) := by
  have bytes : 961 ≤ divCeil pages 8 ∧ divCeil pages 8 ≤ 4096 := by
    unfold divCeil
    split <;> omega
  have count := ramAlloc_length lower
  have bitmap : setRun (setRun (List.replicate (divCeil pages 8) 0) 0 usedPage 1) usedPage 1 1 =
      (ramAlloc pages).bitmap := by
    refine Bitmap.ext (by rw [setRun_length, setRun_length, List.length_replicate, count]) fun i => ?_
    rw [ramAlloc_test]
    by_cases inside : i / 8 < divCeil pages 8
    · refine Bool.eq_iff_iff.mpr ?_
      have marked := used_iff (setRun (setRun (List.replicate (divCeil pages 8) 0) 0 usedPage 1) usedPage 1 1) i
      rw [setRun_one_used, setRun_one_used, used_iff, Bitmap.test_zero, setRun_length, setRun_length,
        List.length_replicate] at marked
      rw [or_iff_right (Nat.not_le.mpr inside), or_iff_right (Nat.not_le.mpr inside)] at marked
      rw [← marked, decide_eq_true_iff]
      unfold usedPage
      simp only [Bool.false_eq_true, false_or]
      omega
    · rw [Bitmap.test_beyond (by simp only [setRun_length, List.length_replicate]; omega), decide_eq_false (by omega)]
  have most : divCeil (pages * 4096) pageSize = pages := by
    rw [divCeil_page]
    omega
  have self : divCeil (divCeil pages 8) pageSize = 1 := by
    rw [divCeil_page]
    omega
  rw [FrameAlloc.init, top, Option.map_some]
  dsimp only
  rw [most, self]
  exact congrArg (fun bits => some { ramAlloc pages with bitmap := bits }) bitmap

theorem init_small : FrameAlloc.init [⟨0, 0x2000000, .freeRAM⟩] usedPage = some smallAlloc :=
  @init_ram _ 0x2000 (by decide) (by decide) (by decide)

/-- That machine before its first process, with no kernel tables built. -/
def smallKernel : Kernel where
  mem _ := 0
  alloc := smallAlloc

/-- An executable without a header: all its bytes are one section of code, of
a driver if it starts with a one. -/
def flatParse (data : List UInt8) : Option Image :=
  some ⟨true, data.head? == some 1, [⟨0, data.length, true, true⟩]⟩

theorem walk_blank (s : Nat) {p : List (Fin 512)} {f : Nat} (reached : tableWalk (fun _ => 0) s p = some f) : f = s := by
  cases p with
  | nil => exact (Option.some.inj reached).symm
  | cons i p =>
    have blank : Mem.entry (fun _ => 0) s i = 0 := Mem.load_zero fun _ _ _ => rfl
    rw [tableWalk, Forest.walk, blank, pteFrame_zero] at reached
    cases reached

theorem boot_blank {map : MemoryMap} {a : FrameAlloc} (init : FrameAlloc.init map usedPage = some a) :
    Kernel.Boot map { mem := fun _ => 0, alloc := a } := by
  refine ⟨⟨a, [], [], init, .init⟩, rfl, fun s shared p f _ reached => ?_⟩
  rw [walk_blank s reached]
  rcases shared with rfl | rfl <;> decide

theorem smallKernel_boot : smallKernel.Boot [⟨0, 0x2000000, .freeRAM⟩] := boot_blank init_small

/-- A machine with all its memory up to the given page, before its first
process. -/
def ramKernel (pages : Nat) : Kernel where
  mem _ := 0
  alloc := ramAlloc pages

theorem ramKernel_boot {length : UInt64} {pages : Nat} (top : maxPhysAddr [⟨0, length, .freeRAM⟩] = some (pages * 4096))
    (lower : 0x1e01 ≤ pages) (upper : pages ≤ 0x8000) : (ramKernel pages).Boot [⟨0, length, .freeRAM⟩] :=
  boot_blank (init_ram top lower upper)

end SmallMachine

end ProkaKernel
