import Mathlib.Order.Bounds.Defs
import ProkaKernel.FrameRuns
import ProkaKernel.FreeFrames

namespace ProkaKernel

/-- A call of the frame allocator, with any arguments. -/
inductive AllocCall
  | allocate (n : Nat)
  | deallocate (pfn n : Nat)

namespace FrameAlloc

/-- One call, with the run that it returns. -/
def call (a : FrameAlloc) : AllocCall → Option Run × FrameAlloc
  | .allocate n =>
    match a.allocateContiguous n with
    | some (start, a') => (some ⟨start, n⟩, a')
    | none => (none, a)
  | .deallocate pfn n => (none, a.deallocateContiguous pfn n)

/-- A sequence of calls, with all runs returned. -/
def calls (a : FrameAlloc) : List AllocCall → List Run × FrameAlloc
  | [] => ([], a)
  | first :: rest => ((a.call first).1.toList ++ ((a.call first).2.calls rest).1, ((a.call first).2.calls rest).2)

/-- The values of the allocator: `init` and the two calls in any order, from
the default one on. -/
inductive Reachable : FrameAlloc → Prop
  | default : Reachable {}
  | init {a a' map reservedPages} : Reachable a → init map reservedPages = some a' → Reachable a'
  | call {a c} : Reachable a → Reachable (a.call c).2

/-- The `n` pages from `start` on are free and lie below `max_page`. -/
def Fits (a : FrameAlloc) (n start : Nat) : Prop :=
  start + n ≤ a.maxPage ∧ ∀ i, start ≤ i → i < start + n → ¬Used a.bitmap i

section
variable {map : MemoryMap} {reservedPages : Nat} {a a' start : FrameAlloc} {n s : Nat}

theorem call_allocate_some {found : Nat} (run : a.allocateContiguous n = some (found, a')) :
    a.call (.allocate n) = (some ⟨found, n⟩, a') := by
  rw [call, run]

theorem call_allocate_none (refused : a.allocateContiguous n = none) : a.call (.allocate n) = (none, a) := by
  rw [call, refused]

/-- A call of the allocator is one of its two operations, or changes nothing. -/
theorem call_cases (a : FrameAlloc) (c : AllocCall) :
    (∃ n found a', c = .allocate n ∧ a.allocateContiguous n = some (found, a') ∧ a.call c = (some ⟨found, n⟩, a')) ∨
    (∃ pfn n, c = .deallocate pfn n ∧ a.call c = (none, a.deallocateContiguous pfn n)) ∨
    a.call c = (none, a) := by
  cases c with
  | allocate n =>
    cases run : a.allocateContiguous n with
    | some out => exact Or.inl ⟨n, out.1, out.2, rfl, run, call_allocate_some run⟩
    | none => exact Or.inr (Or.inr (call_allocate_none run))
  | deallocate pfn n => exact Or.inr (Or.inl ⟨pfn, n, rfl, rfl⟩)

theorem Initial.guarded (initial : Initial map reservedPages start) : Guarded start where
  marked q below := (initial.used q).mpr (Or.inr (Or.inr below))
  pos := Nat.le_of_eq initial.pos.symm

theorem Guarded.call (guarded : Guarded a) (c : AllocCall) : Guarded (a.call c).2 := by
  rcases a.call_cases c with ⟨n, found, a', _, run, same⟩ | ⟨pfn, n, _, same⟩ | same
  · rw [same]
    exact (guarded.hands run).guarded
  · rw [same]
    exact guarded.deallocate pfn n
  · rw [same]
    exact guarded

theorem shape_call (a : FrameAlloc) (c : AllocCall) : (a.call c).2.shape = a.shape := by
  rcases a.call_cases c with ⟨n, found, a', _, run, same⟩ | ⟨pfn, n, _, same⟩ | same
  · rw [same]
    exact shape_allocate run
  · rw [same]
    exact shape_deallocate a pfn n
  · rw [same]

/-- A run that a call returns lies above the protected region. -/
theorem Guarded.call_run (guarded : Guarded a) {c : AllocCall} {run : Run} (returned : (a.call c).1 = some run)
    (positive : 1 ≤ run.count) :
    a.reserved + a.selfUsedPage ≤ run.start ∧ run.start + run.count ≤ a.maxPage := by
  rcases a.call_cases c with ⟨n, found, a', _, granted, same⟩ | ⟨pfn, n, _, same⟩ | same
  · rw [same] at returned
    cases returned
    exact ⟨(guarded.hands granted).above positive, (allocateContiguous_some granted).2.1⟩
  · rw [same] at returned
    cases returned
  · rw [same] at returned
    cases returned

/-- What holds after any calls: the protected region is marked, and the runs
returned lie above it. -/
theorem Guarded.calls (guarded : Guarded a) (cs : List AllocCall) :
    Guarded (a.calls cs).2 ∧ (a.calls cs).2.shape = a.shape ∧
      ∀ run ∈ (a.calls cs).1, 1 ≤ run.count →
        a.reserved + a.selfUsedPage ≤ run.start ∧ run.start + run.count ≤ a.maxPage := by
  induction cs generalizing a with
  | nil => exact ⟨guarded, rfl, fun run member => absurd member List.not_mem_nil⟩
  | cons c cs ih =>
    have same := a.shape_call c
    obtain ⟨after, kept, above⟩ := ih (guarded.call c)
    refine ⟨after, kept.trans same, fun run member positive => ?_⟩
    rcases List.mem_append.mp member with here | later
    · exact guarded.call_run (Option.mem_toList.mp here) positive
    · have pages : (a.call c).2.maxPage = a.maxPage := congrArg Prod.fst same
      have bounds := above run later positive
      rw [boundary_of_shape same, pages] at bounds
      exact bounds

/-- Whatever is allocated and freed, the pages below the boundary keep their
bits, and no run holds such a page or one beyond `max_page`. -/
theorem reserved_region_survives (boot : FrameAlloc.init map reservedPages = some start) (cs : List AllocCall) :
    (∀ pfn, pfn < start.maxPage → pfn < start.reserved + start.selfUsedPage →
      Bitmap.test (start.calls cs).2.bitmap pfn = true) ∧
    ∀ run ∈ (start.calls cs).1, 1 ≤ run.count → ∀ pfn, run.Has pfn →
      start.reserved + start.selfUsedPage ≤ pfn ∧ pfn < start.maxPage := by
  have initial := init_initial boot
  obtain ⟨guarded, same, above⟩ := initial.guarded.calls cs
  refine ⟨fun pfn inside below => ?_, fun run member positive pfn has => ?_⟩
  · have length : (start.calls cs).2.bitmap.length = start.bitmap.length := congrArg (fun s => s.2.2.2) same
    have bit := initial.inside inside
    have used := guarded.marked pfn (by rw [boundary_of_shape same]; exact below)
    exact ((used_iff _ _).mp used).resolve_left (by omega)
  · have bounds := above run member positive
    have first := has.1
    have last := has.2
    omega

/-- Frees of the first pages, of a run never allocated and of one beyond the
end, a double free, and two allocations. -/
theorem reserved_region_survives_bad_frees :
    ∃ start, FrameAlloc.init [⟨0, 0x10000, .freeRAM⟩] 1 = some start ∧
      (start.calls [.deallocate 0 16, .allocate 2, .deallocate 3 100, .deallocate 3 100, .allocate 1]).1 =
        [⟨2, 2⟩, ⟨4, 1⟩] ∧
      Bitmap.test (start.calls [.deallocate 0 16, .allocate 2, .deallocate 3 100, .deallocate 3 100,
        .allocate 1]).2.bitmap 1 = true := by
  have boot : ∃ start, FrameAlloc.init [⟨0, 0x10000, .freeRAM⟩] 1 = some start ∧ 1 < start.maxPage ∧
      1 < start.reserved + start.selfUsedPage ∧
      (start.calls [.deallocate 0 16, .allocate 2, .deallocate 3 100, .deallocate 3 100, .allocate 1]).1 =
        [⟨2, 2⟩, ⟨4, 1⟩] := ⟨_, rfl, by decide, by decide, by decide +kernel⟩
  obtain ⟨start, boot, inside, below, runs⟩ := boot
  exact ⟨start, boot, runs, (reserved_region_survives boot _).1 1 inside below⟩

theorem scanFrom_least {fuel cur : Nat} (found : scanFrom a n fuel cur = some s) (t : Nat) (above : cur ≤ t)
    (below : t < s) : runFree a.bitmap t n = false := by
  induction fuel generalizing cur with
  | zero => cases found
  | succ fuel ih =>
    unfold scanFrom at found
    split at found
    · split at found
      · cases found
        omega
      · rename_i taken
        by_cases here : cur = t
        · exact here ▸ Bool.not_eq_true _ ▸ taken
        · exact ih found (by omega)
    · cases found

/-- The scanner finds the first place where the run fits. -/
theorem scan_isLeast {first : Nat} (found : a.scan n first = some s) : IsLeast {t | first ≤ t ∧ a.Fits n t} s := by
  obtain ⟨above, bound, free⟩ := scanFrom_some found
  refine ⟨⟨above, bound, (runFree_iff _ _ _).mp free⟩, fun t fits => Nat.le_of_not_lt fun below => ?_⟩
  have taken := scanFrom_least found t fits.1 below
  rw [(runFree_iff _ _ _).mpr fits.2.2] at taken
  cases taken

theorem scan_none_fits {first : Nat} (missing : a.scan n first = none) : ¬∃ t, first ≤ t ∧ a.Fits n t := by
  rintro ⟨t, above, bound, free⟩
  have taken := scan_none missing t above bound
  rw [(runFree_iff _ _ _).mpr free] at taken
  cases taken

/-- Where a run is found: from the search position on, or else from `reserved`
on. -/
theorem allocateContiguous_first (run : a.allocateContiguous n = some (s, a')) :
    IsLeast {t | a.pos ≤ t ∧ a.Fits n t} s ∨
      (¬∃ t, a.pos ≤ t ∧ a.Fits n t) ∧ IsLeast {t | a.reserved ≤ t ∧ a.Fits n t} s := by
  obtain ⟨first | ⟨missing, second⟩, _⟩ := allocateContiguous_scan run
  · exact Or.inl (scan_isLeast first)
  · exact Or.inr ⟨scan_none_fits missing, scan_isLeast second⟩

/-- An allocation sets the bits of its run and no others. -/
theorem allocateContiguous_bits (run : a.allocateContiguous n = some (s, a')) (q : Nat) :
    Bitmap.test a'.bitmap q = (Bitmap.test a.bitmap q || decide (s ≤ q ∧ q < s + n)) := by
  obtain ⟨_, _, free, rfl⟩ := allocateContiguous_some run
  have used := setRun_one_used a.bitmap s n q
  rw [used_iff, used_iff, setRun_length] at used
  by_cases outside : a.bitmap.length ≤ q / 8
  · have apart : ¬(s ≤ q ∧ q < s + n) := fun has => free q has.1 has.2 ((used_iff _ _).mpr (Or.inl outside))
    rw [Bitmap.test_beyond outside, Bitmap.test_beyond (by rw [setRun_length]; exact outside), decide_eq_false apart]
    rfl
  · rw [or_iff_right outside, or_iff_right outside] at used
    rw [Bool.eq_iff_iff, used, Bool.or_eq_true, decide_eq_true_eq]

theorem Reachable.pos_ge (reach : Reachable a) : a.reserved ≤ a.pos := by
  induction reach with
  | default => exact Nat.le_refl 0
  | init _ boot _ =>
    rw [(init_initial boot).pos]
    exact Nat.le_add_right ..
  | @call a c _ ih =>
    rcases a.call_cases c with ⟨n, found, a', _, run, same⟩ | ⟨pfn, n, _, same⟩ | same
    · obtain ⟨_, _, _, rfl⟩ := allocateContiguous_some run
      rw [same]
      exact Nat.le_trans ih (Nat.le_add_right ..)
    · rw [same]
      unfold deallocateContiguous
      split <;> exact ih
    · rw [same]
      exact ih

/-- `allocate_contiguous` is a complete first fit: it refuses only when no run
fits above `reserved`, and then changes nothing; else it takes the first run
from the search position on, or failing that the first one from `reserved` on,
and sets exactly its bits. -/
theorem complete_first_fit (reach : Reachable a) (n : Nat) :
    ((a.call (.allocate n)).1 = none ↔ ¬∃ t, a.reserved ≤ t ∧ a.Fits n t) ∧
    ((a.call (.allocate n)).1 = none → (a.call (.allocate n)).2 = a) ∧
    ∀ run a', a.call (.allocate n) = (some run, a') → run.count = n ∧
      (IsLeast {t | a.pos ≤ t ∧ a.Fits n t} run.start ∨
        (¬∃ t, a.pos ≤ t ∧ a.Fits n t) ∧ IsLeast {t | a.reserved ≤ t ∧ a.Fits n t} run.start) ∧
      (∀ q, Bitmap.test a'.bitmap q = (Bitmap.test a.bitmap q || decide (run.start ≤ q ∧ q < run.start + n))) ∧
      a'.maxPage = a.maxPage ∧ a'.reserved = a.reserved ∧ a'.selfUsedPage = a.selfUsedPage := by
  have refused := allocateContiguous_none_iff n reach.pos_ge
  cases run : a.allocateContiguous n with
  | none =>
    rw [call_allocate_none run]
    exact ⟨iff_of_true rfl (refused.mp run), fun _ => rfl, fun _ _ granted => by cases granted⟩
  | some out =>
    rw [call_allocate_some run]
    refine ⟨iff_of_false (fun refusal => by cases refusal) fun full => ?_, fun refusal => (by cases refusal),
      fun _ _ granted => ?_⟩
    · rw [refused.mpr full] at run
      cases run
    · cases granted
      obtain ⟨_, _, _, same⟩ := allocateContiguous_some run
      refine ⟨rfl, allocateContiguous_first run, allocateContiguous_bits run, ?_⟩
      rw [same]
      exact ⟨rfl, rfl, rfl⟩

/-- With all pages taken and one given back, the search position is behind the
gap, which is found from `reserved` on. -/
theorem complete_first_fit_after_free :
    ∃ start a, FrameAlloc.init [⟨0, 0x8000, .freeRAM⟩] 1 = some start ∧
      (start.calls [.allocate 1, .allocate 1, .allocate 4, .deallocate 3 1]).2 = a ∧
      a.pos = 8 ∧ a.call (.allocate 1) = (some ⟨3, 1⟩, (a.call (.allocate 1)).2) ∧
      IsLeast {t | a.reserved ≤ t ∧ a.Fits 1 t} 3 := by
  have ran : ∃ start a, FrameAlloc.init [⟨0, 0x8000, .freeRAM⟩] 1 = some start ∧
      (((start.call (.allocate 1)).2.call (.allocate 1)).2.call (.allocate 4)).2.call (.deallocate 3 1) = (none, a) ∧
      (start.calls [.allocate 1, .allocate 1, .allocate 4, .deallocate 3 1]).2 = a ∧ a.pos = 8 ∧ a.maxPage = 8 ∧
      a.call (.allocate 1) = (some ⟨3, 1⟩, (a.call (.allocate 1)).2) := ⟨_, _, rfl, rfl, rfl, rfl, rfl, rfl⟩
  obtain ⟨start, a, boot, last, done, pos, pages, granted⟩ := ran
  have reach : Reachable a := by
    have freed := ((((Reachable.default.init boot).call (c := .allocate 1)).call (c := .allocate 1)).call
      (c := .allocate 4)).call (c := .deallocate 3 1)
    rw [last] at freed
    exact freed
  refine ⟨start, a, boot, done, pos, granted, ?_⟩
  obtain ⟨_, first | ⟨_, first⟩, _⟩ := (complete_first_fit reach 1).2.2 _ _ granted
  · have above := first.1.1
    dsimp only at above
    omega
  · exact first

end

end FrameAlloc

end ProkaKernel
