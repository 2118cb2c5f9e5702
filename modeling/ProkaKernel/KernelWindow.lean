import ProkaKernel.KernelMap
import ProkaKernel.MemoryIntegrity

namespace ProkaKernel
open Paging PageFlags

/-- The tables of the upper half hold what `paging::init` wrote into them. -/
def Whole (m : Mem) : Prop := ∀ t j, UpperTable t → m.entry t j = upperEntry t j

/-- The upper half of an address space is the table for its kind of process. -/
def UpperLinked (typ : ProcType) (m : Mem) (root : Nat) : Prop :=
  ∀ j : Fin 512, 256 ≤ j.val → m.entry root j = if j = 256 then pte (Kernel.upperTable typ) (present ||| writable) else 0

section
variable {m m' : Mem} {t f : Nat} {i : Fin 512}

theorem Shared.upper (shared : Shared t) : UpperTable t :=
  shared.imp_right fun same => Or.inr (by rw [same]; decide)

/-- The level-2 tables of the upper half. -/
def UpperPdt (t : Nat) : Prop := t = pdtHigh ∨ t = pdtHproc ∨ t = pdtGs ∨ t = pdtGrw

theorem UpperPdt.upperTable (table : UpperPdt t) : UpperTable t := by
  rcases table with rfl | rfl | rfl | rfl
  · exact Or.inr (Or.inl rfl)
  all_goals exact Or.inr (Or.inr (by decide))

/-- What the level-2 tables link are the tables of 4 KiB pages, and these are
not empty. -/
theorem UpperPdt.next (table : UpperPdt t) (next : pteFrame (upperEntry t i) = some f) :
    UpperTable f ∧ upperEntry f 0 ≠ 0 := by
  have huge {e : Nat} (listed : upperEntry t i = e) (none : pteFrame e = none) : UpperTable f ∧ upperEntry f 0 ≠ 0 := by
    rw [listed, none] at next
    cases next
  have hugeBit {frame flags : Nat} (inRam : frame < 2 ^ 40) (small : flags < 4096) (bit : flags / 128 % 2 = 1) :
      pteFrame (pte frame flags) = none := if_neg fun both => by
    rw [(pte_bits inRam small).2.2.1] at both
    omega
  rcases table with rfl | rfl | rfl | rfl
  · by_cases small : i.val < 3
    · have listed : upperEntry pdtHigh i = pte (0x10a + i) flags := if_pos small
      rw [listed, pteFrame_pte (by omega) (by decide)] at next
      cases Option.some.inj next
      refine ⟨Or.inr (Or.inr ⟨by unfold pdptHproc; omega, by omega⟩), ?_⟩
      rw [upperEntry_kernel small]
      exact Nat.ne_of_gt (Nat.lt_of_lt_of_le (by decide : 0 < flags) (Nat.le_add_left ..))
    · by_cases initrd : i.val < 19
      · exact huge ((if_neg small).trans (if_pos initrd)) (hugeBit (by omega) (by decide) (by decide))
      · exact huge ((if_neg small).trans (if_neg initrd)) rfl
  · by_cases small : i.val < 24
    · have listed : upperEntry pdtHproc i = pte (0x10d + i) present := if_pos small
      rw [listed, pteFrame_pte (by omega) (by decide)] at next
      cases Option.some.inj next
      refine ⟨Or.inr (Or.inr ⟨by unfold pdptHproc; omega, by omega⟩), ?_⟩
      rw [upperEntry_process]
      exact Nat.ne_of_gt (Nat.lt_of_lt_of_le (by decide : 0 < present) (Nat.le_add_left ..))
    · exact huge (if_neg small) rfl
  · by_cases first : i = 0
    · exact huge (if_pos first) (by decide)
    · exact huge (if_neg first) rfl
  · by_cases first : i = 0
    · exact huge (if_pos first) (by decide)
    · by_cases second : i = 1
      · exact huge ((if_neg first).trans (if_pos second)) (by decide)
      · exact huge ((if_neg first).trans (if_neg second)) rfl

/-- The tables of the upper half link each other only, and none is empty. -/
theorem Whole.reached {s : Nat} {p : List (Fin 512)} (whole : Whole m) (shared : Shared s) (short : p.length ≤ 2)
    (reached : tableWalk m s p = some t) : UpperTable t ∧ ∃ j, upperEntry t j ≠ 0 := by
  cases p with
  | nil =>
    cases Option.some.inj reached
    exact ⟨shared.upper, 1, by rcases shared with rfl | rfl <;> decide⟩
  | cons i p =>
    obtain ⟨u, first, rest⟩ := Option.bind_eq_some_iff.mp reached
    rw [whole s i shared.upper] at first
    have table : UpperPdt u := pteFrame_upper3 shared first
    cases p with
    | nil =>
      cases Option.some.inj rest
      exact ⟨table.upperTable, 0, by rcases table with rfl | rfl | rfl | rfl <;> decide⟩
    | cons j p =>
      obtain ⟨v, second, last⟩ := Option.bind_eq_some_iff.mp rest
      obtain rfl : p = [] := List.eq_nil_of_length_eq_zero (by simp only [List.length_cons] at short; omega)
      cases Option.some.inj last
      rw [whole u j table.upperTable] at second
      exact ⟨(table.next second).1, 0, (table.next second).2⟩

/-- The table that a path through the upper half leads to is not empty. -/
theorem Whole.not_blank {typ : ProcType} {root : Nat} {p : List (Fin 512)} (whole : Whole m)
    (linked : UpperLinked typ m root) (short : p.length ≤ 2) (notLow : ¬LowPath (p ++ [i]))
    (reached : tableWalk m root p = some t) (entry : pteFrame (m.entry t i) = some f) : ∃ j, m.entry f j ≠ 0 := by
  have top {j : Fin 512} {s : Nat} (high : 256 ≤ j.val) (first : pteFrame (m.entry root j) = some s) : Shared s := by
    rw [linked j high] at first
    split at first
    · rw [pteFrame_pte (Kernel.upperTable_shared typ).lt (by decide)] at first
      exact Option.some.inj first ▸ Kernel.upperTable_shared typ
    · cases first
  have used {s : Nat} {q : List (Fin 512)} (shared : Shared s) (length : q.length ≤ 2)
      (below : tableWalk m s q = some f) : ∃ j, m.entry f j ≠ 0 := by
    obtain ⟨upper, j, used⟩ := whole.reached shared length below
    exact ⟨j, (whole f j upper).symm ▸ used⟩
  have length : (p ++ [i]).length ≤ 4 := by
    rw [List.length_append, List.length_singleton]
    omega
  rcases not_low_head length notLow with ⟨rfl, high⟩ | ⟨j, q, rfl, high⟩
  · obtain rfl : root = t := Option.some.inj reached
    exact used (q := []) (top high entry) (Nat.zero_le 2) rfl
  · obtain ⟨s, first, rest⟩ := Option.bind_eq_some_iff.mp reached
    refine used (q := q ++ [i]) (top high first) ?_ ?_
    · rw [List.length_append, List.length_singleton]
      exact short
    · change tableWalk m s q = some t at rest
      rw [tableWalk, Forest.walk_through rest, entry]
      rfl

end

/-- The upper half of all address spaces is complete. -/
structure Snapshot.Anchored (c : Snapshot) : Prop where
  whole : Whole c.mem
  linked : ∀ r ∈ c.roots, ∃ typ, UpperLinked typ c.mem r
  reserved : 0x125 ≤ c.alloc.reserved

section
variable {m m' : Mem} {a a' : FrameAlloc} {R pend : Set Nat} {root t : Nat} {j : Fin 512}

theorem Whole.congr (whole : Whole m) (reserved : 0x125 ≤ a.reserved)
    (same : ∀ t j, Protected a R t j → m'.entry t j = m.entry t j) : Whole m' := by
  intro t j upper
  have below := upper.range.2.1
  rw [same t j (Or.inl (by omega))]
  exact whole t j upper

theorem UpperLinked.congr {typ : ProcType} (linked : UpperLinked typ m root) (member : root ∈ R)
    (same : ∀ t j, Protected a R t j → m'.entry t j = m.entry t j) : UpperLinked typ m' root := by
  intro j high
  rw [same root j (Or.inr ⟨member, high⟩)]
  exact linked j high

/-- The clean-up visits the upper half as well, but finds no empty table there. -/
theorem TableTrim.protected_same {typ : ProcType} (trim : TableTrim root m a m' a') (owns : Owns m a R pend)
    (member : root ∈ R) (whole : Whole m) (linked : UpperLinked typ m root) (reserved : 0x125 ≤ a.reserved) :
    ∀ t j, Protected a R t j → m'.entry t j = m.entry t j := by
  induction trim with
  | refl => exact fun _ _ _ => rfl
  | @prune m1 a1 p i u f before short reached entry empty ih =>
    intro t j safe
    have owns1 := before.owns owns member
    have safe1 : Protected a1 R t j := safe.imp_left fun below => before.reserved.symm ▸ below
    by_cases low : LowPath (p ++ [i])
    · rw [Mem.entry_setEntry_of_ne _ _ (owns1.protected_apart safe1 member low reached), ih t j safe]
    · obtain ⟨j', used⟩ := (whole.congr reserved ih).not_blank (linked.congr member ih) short low reached entry
      exact absurd (empty j') used

end

section
variable {back device : Prop} {c c' : Snapshot} {t : Nat} {j : Fin 512}

theorem Edit.protected_same (edit : Edit back device c c') (owned : c.Owned) (anchored : c.Anchored)
    (safe : Protected c.alloc c.roots t j) : c'.mem.entry t j = c.mem.entry t j := by
  have outside := Owns.protected_unpending owned safe
  cases edit with
  | take | give | drop => rfl
  | fill others => exact entry_filled others outside j
  | plant pending _ _ => exact entry_root _ _ _ fun same => outside (same ▸ pending)
  | grow member growth => exact growth.protected_entry owned member safe
  | map member bound _ _ _ last _ _ =>
    exact Mem.entry_setEntry_of_ne _ _ (Owns.protected_apart owned safe member (last.low bound) last.reached)
  | unmap _ member bound last _ _ =>
    exact Mem.entry_setEntry_of_ne _ _ (Owns.protected_apart owned safe member (last.low bound) last.reached)
  | trim _ member trim =>
    obtain ⟨typ, linked⟩ := anchored.linked _ member
    exact trim.protected_same owned member anchored.whole linked anchored.reserved t j safe
  | device _ member low _ reached _ _ =>
    exact Mem.entry_setEntry_of_ne _ _ (Owns.protected_apart owned safe member low reached)

theorem Edit.anchored (edit : Edit back device c c') (owned : c.Owned) (anchored : c.Anchored) : c'.Anchored := by
  have same (t : Nat) (j : Fin 512) (safe : Protected c.alloc c.roots t j) : c'.mem.entry t j = c.mem.entry t j :=
    edit.protected_same owned anchored safe
  have kept {r : Nat} (member : r ∈ c.roots) : ∃ typ, UpperLinked typ c'.mem r := by
    obtain ⟨typ, linked⟩ := anchored.linked r member
    exact ⟨typ, linked.congr member same⟩
  refine ⟨anchored.whole.congr anchored.reserved same, fun r member => ?_, ?_⟩
  · cases edit with
    | @plant root upper pend pending shared fewer =>
      rcases Set.mem_insert_iff.mp member with rfl | old
      · obtain ⟨typ, rfl⟩ : ∃ typ, upper = Kernel.upperTable typ := by
          rcases shared with rfl | rfl
          · exact ⟨.normal, rfl⟩
          · exact ⟨.driver, rfl⟩
        refine ⟨typ, fun j high => ?_⟩
        by_cases top : j = 256
        · rw [if_pos top, top]
          exact Mem.entry_setEntry_self _ _ _ (pte_lt shared.lt (by decide))
        · rw [if_neg top]
          exact entry_root_self _ _ _ top
      · exact kept old
    | _ => exact kept member
  · rw [edit.reserved owned]
    exact anchored.reserved

/-- Kernel calls do not touch the kernel's own tables, nor the upper halves of
the address spaces. -/
theorem Edits.protected_same (edits : Edits back device c c') (owned : c.Owned) (anchored : c.Anchored) :
    c'.Anchored ∧ ∀ t j, Protected c.alloc c.roots t j → c'.mem.entry t j = c.mem.entry t j := by
  refine (edits.keeps (P := fun d => d.Anchored ∧ (∀ t j, Protected c.alloc c.roots t j → Protected d.alloc d.roots t j) ∧
    ∀ t j, Protected c.alloc c.roots t j → d.mem.entry t j = c.mem.entry t j) ?_ owned
    ⟨anchored, fun _ _ => id, fun _ _ _ => rfl⟩).2.imp_right And.right
  rintro d d' edit dOwned ⟨before, still, same⟩
  refine ⟨edit.anchored dOwned before, fun t j safe => ?_, fun t j safe => ?_⟩
  · rcases still t j safe with below | ⟨member, high⟩
    · exact Or.inl ((edit.reserved dOwned).symm ▸ below)
    · exact Or.inr ⟨edit.roots member, high⟩
  · rw [edit.protected_same dOwned before (still t j safe), same t j safe]

end

/-- The processor finds the same in two memories with complete upper halves. -/
theorem Whole.walk {m m' : Mem} {t : Nat} {i j k : Fin 512} (whole : Whole m) (whole' : Whole m') (shared : Shared t) :
    hwWalk m' t [i, j, k] = hwWalk m t [i, j, k] := by
  refine hwWalk_congr fun q l rest u split reached => ?_
  have length := congrArg List.length split
  simp only [List.length_cons, List.length_nil, List.length_append] at length
  have upper := (whole.reached shared (by omega) reached).1
  rw [whole u l upper, whole' u l upper]

theorem Kernel.UpperHalf.linked {typ typ' : ProcType} {m : Mem} {root : Nat} (half : UpperHalf typ m root)
    (linked : UpperLinked typ' m root) : UpperLinked typ m root := by
  have top := linked 256 (Nat.le_refl 256)
  rw [if_pos rfl] at top
  rcases half 256 (Nat.le_refl 256) with zero | ⟨_, link⟩
  · rw [zero] at top
    cases typ' <;> exact absurd top (by decide)
  · intro j high
    by_cases first : j = 256
    · rw [if_pos first, first]
      exact link
    · rw [linked j high, if_neg first, if_neg first]

namespace Kernel

section
variable {k k' : Kernel} {R : Set Nat} {spaces : Set (ProcType × Nat)} {typ : ProcType} {root addr : Nat}

theorem Booted.whole {map : MemoryMap} (booted : Booted map k) : Whole k.mem := by
  obtain ⟨m, oldPml4, same⟩ := booted.tables
  exact fun t j upper => (same t j upper).trans (init_upper oldPml4 upper)

theorem Booted.anchored {map : MemoryMap} (booted : Booted map k) : (k.snapshot ∅ []).Anchored where
  whole := booted.whole
  linked _ none := nomatch none
  reserved := booted.boot.reserved ▸ (by decide : 0x125 ≤ usedPage)

/-- No event of the machine changes the upper halves or the kernel's tables, and every
one keeps the rules for entries of the lower halves. -/
theorem Sealed.anchored (mapper : PageMapper) (parse : List UInt8 → Option Image) {event : MachineEvent}
    (before : k.Sealed R spaces) (anchored : (k.snapshot R []).Anchored) (caller : event.By spaces)
    (run : k.machineStep mapper parse event = some k') :
    ∃ R', k'.Sealed R' (spaces ∪ k'.spaces) ∧ (k'.snapshot R' []).Anchored ∧
      (∀ Q, EntryRule False Q → LowEntries Q k.mem R → LowEntries Q k'.mem R') ∧
      ∀ t j, t < 0x1800 → k'.mem.entry t j = k.mem.entry t j := by
  cases event with
  | kernel event =>
    obtain ⟨R', goes⟩ := before.valid.step mapper parse before.known_tables caller run
    obtain ⟨after, same⟩ := goes.edits.protected_same before.valid.stage.owns anchored
    refine ⟨R', before.goes goes, after, fun Q rule => goes.edits.lowEntries rule before.valid.stage.owns,
      fun t j below => same t j (Or.inl ?_)⟩
    rw [show (k.snapshot R []).alloc.reserved = usedPage from before.reserved]
    exact Nat.lt_trans below (by decide)
  | store typ root addr byte =>
    obtain rfl := Option.some.inj run
    have space := before.known _ caller
    rcases before.store_cases space byte with same | ⟨g, m, stored, others, target⟩
    · rw [same]
      exact ⟨R, before.extend, anchored, fun _ _ => id, fun _ _ _ => rfl⟩
    · obtain ⟨noTable, noUpper⟩ := before.target_free space.1 rfl target
      have kept {t : Nat} (apart : t ≠ g) (j : Fin 512) : m.entry t j = k.mem.entry t j := entry_outside others apart j
      rw [stored]
      refine ⟨R, (before.write others noTable noUpper).extend, ⟨fun t j upper => ?_, fun r member => ?_,
        anchored.reserved⟩, fun _ _ entries => lowEntries_outside entries others noTable, fun t j below => kept ?_ j⟩
      · exact (kept (fun same => noUpper (same ▸ upper)) j).trans (anchored.whole t j upper)
      · obtain ⟨typ', linked⟩ := anchored.linked r member
        refine ⟨typ', fun j high => (kept (fun same => ?_) j).trans (linked j high)⟩
        exact noTable r member [] lowPath_nil (Nat.zero_le 3) (congrArg some same)
      · rintro rfl
        rcases target with ⟨low, leaf⟩ | ⟨lower, _⟩
        · have above := (before.valid.stage.owns.spaces.placed t ⟨root, _, space.1, low, leaf⟩).2
          rw [before.reserved, usedPage] at above
          omega
        · omega

theorem MachineRun.anchored {mapper : PageMapper} {parse : List UInt8 → Option Image} {map : MemoryMap} {start : Kernel}
    {allowed : Kernel → MachineEvent → Prop} (booted : Booted map start)
    (run : MachineRun mapper parse allowed start ∅ k spaces) :
    ∃ R, k.Sealed R spaces ∧ (k.snapshot R []).Anchored ∧ (∀ Q, EntryRule False Q → LowEntries Q k.mem R) ∧
      ∀ t j, t < 0x1800 → k.mem.entry t j = start.mem.entry t j := by
  induction run with
  | refl => exact ⟨∅, booted.sealed, booted.anchored, fun _ _ _ none => (nomatch none), fun _ _ _ => rfl⟩
  | next _ caller _ step ih =>
    obtain ⟨R, sealed, anchored, entries, kept⟩ := ih
    obtain ⟨R', sealed', anchored', entries', same⟩ := sealed.anchored mapper parse anchored caller step
    exact ⟨R', sealed', anchored', fun Q rule => entries' Q rule (entries Q rule),
      fun t j below => (same t j below).trans (kept t j below)⟩

/-- The kernel is always mapped. In every state that the machine can reach, a
process that was ever created has in its upper half what `paging::init` built
for its kind of process, and nothing else; removals, which clean up whole
address spaces, take none of it away. The kernel's own tables are as at boot. -/
theorem kernel_window (mapper : PageMapper) (parse : List UInt8 → Option Image) {map : MemoryMap} {start : Kernel}
    {allowed : Kernel → MachineEvent → Prop} (booted : Booted map start)
    (run : MachineRun mapper parse allowed start ∅ k spaces) :
    (∀ typ root addr, (typ, root) ∈ spaces → 0xffff800000000000 ≤ addr → addr < 2 ^ 64 →
      hwWalk k.mem root (pagePath (addr / 4096)) =
        if addr < 0xffff808000000000 then
          (hwWalk start.mem (upperTable typ) (upperPath addr)).map (pte (upperTable typ) (present ||| writable) :: ·)
        else none) ∧
    ∀ t j, t < 0x1800 → k.mem.entry t j = start.mem.entry t j := by
  obtain ⟨R, sealed, anchored, _, kept⟩ := run.anchored booted
  refine ⟨fun typ root addr there lower upper => ?_, kept⟩
  obtain ⟨member, half⟩ := sealed.known _ there
  obtain ⟨typ', linked'⟩ := anchored.linked root member
  have linked := half.linked linked'
  have high : 256 ≤ (Fin.ofNat 512 (addr / 4096 / 512 ^ 3)).val := by
    rw [Fin.val_ofNat]
    omega
  have entry := linked _ high
  by_cases window : addr < 0xffff808000000000
  · have first : Fin.ofNat 512 (addr / 4096 / 512 ^ 3) = 256 := Fin.ext (by rw [Fin.val_ofNat]; omega)
    rw [if_pos first] at entry
    rw [if_pos window, pagePath, hwWalk_link entry (upperTable_shared typ).lt (by decide) (by decide)]
    exact congrArg (Option.map _) (booted.whole.walk anchored.whole (upperTable_shared typ))
  · have other : Fin.ofNat 512 (addr / 4096 / 512 ^ 3) ≠ 256 := by
      intro same
      have value := congrArg Fin.val same
      rw [Fin.val_ofNat] at value
      change _ = 256 at value
      omega
    rw [if_neg other] at entry
    rw [if_neg window, pagePath, hwWalk_absent entry]

/-- A process of the small machine that was removed. -/
theorem kernel_window_removed_process :
    ∃ k spaces, MachineRun FourLevel.mapper flatParse (fun _ _ => True) pagedKernel ∅ k spaces ∧
      (k.sched.slot .normal 0).present = false ∧ (ProcType.normal, 0x1e02) ∈ spaces ∧
      hwWalk k.mem 0x1e02 (pagePath (0xffff800000000000 / 4096)) =
        (hwWalk pagedKernel.mem pdptHigh (upperPath 0xffff800000000000)).map (pte pdptHigh (present ||| writable) :: ·) := by
  have run : ((pagedKernel.step FourLevel.mapper flatParse (.create [0x90] 0)).map fun k =>
      ((k.sched.slot .normal 0).tableAddr, (k.sched.normalProcess 0).present)) = some (0x1e02 * 4096, true) := by
    decide +kernel
  obtain ⟨k1, first, same⟩ := Option.map_eq_some_iff.mp run
  obtain ⟨table, present⟩ := Prod.mk.inj same
  have removable : (ProkaKernel.remove k1.sched .normal 0).isOk = true := by
    simp [ProkaKernel.remove, removeNormal, present, maxPs, Except.isOk, Except.toBool]
  obtain ⟨k2, second, removed⟩ := remove_ok FourLevel.mapper removable
  have created : pagedKernel.machineStep FourLevel.mapper flatParse (.kernel (.create [0x90] 0)) = some k1 := first
  have gone : k1.machineStep FourLevel.mapper flatParse (.kernel (.remove .normal 0)) = some k2 :=
    congrArg (Option.map Prod.snd) second
  have reach : MachineRun FourLevel.mapper flatParse (fun _ _ => True) pagedKernel ∅ k2 (∅ ∪ k1.spaces ∪ k2.spaces) :=
    (MachineRun.refl.next (by exact trivial) trivial created).next (by exact trivial) trivial gone
  have there : (ProcType.normal, 0x1e02) ∈ ∅ ∪ k1.spaces ∪ k2.spaces := Or.inl (Or.inr ⟨0, table, by decide⟩)
  have window := (kernel_window FourLevel.mapper flatParse pagedKernel_booted reach).1 _ _ 0xffff800000000000 there
    (Nat.le_refl _) (by decide)
  rw [if_pos (by decide)] at window
  exact ⟨k2, _, reach, congrArg Slot.present removed.slot, there, window⟩

end

end Kernel

end ProkaKernel
