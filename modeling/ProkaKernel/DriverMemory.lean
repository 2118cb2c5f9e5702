import ProkaKernel.HardwareWalk
import ProkaKernel.Isolation
import ProkaKernel.LowEntries
import ProkaKernel.PagingInit

namespace ProkaKernel
open Paging PageFlags

/-- The tables of the upper half hold what `paging::init` wrote into them, or
less. -/
def Paged (m : Mem) : Prop := ∀ t j, UpperTable t → m.entry t j = upperEntry t j ∨ m.entry t j = 0

section
variable {m : Mem} {t : Nat} {i j k : Fin 512} {entries : List Nat}

theorem Paged.entry (paged : Paged m) (upper : UpperTable t) (present : m.entry t i % 2 = 1) :
    m.entry t i = upperEntry t i := by
  refine (paged t i upper).resolve_right fun zero => ?_
  rw [zero] at present
  cases present

/-- A step through a link to another table of the upper half. -/
theorem Paged.link {rest : List (Fin 512)} (paged : Paged m) (frame flags : Nat) (upper : UpperTable t)
    (listed : upperEntry t i = pte frame flags) (inRam : frame < 2 ^ 40) (small : flags < 128)
    (run : hwWalk m t (i :: rest) = some entries) :
    ∃ below, hwWalk m frame rest = some below ∧ entries = pte frame flags :: below := by
  obtain ⟨present, kind⟩ := hwWalk_cons run
  have same := (paged.entry upper present).trans listed
  obtain ⟨_, _, huge, next⟩ := pte_bits inRam (Nat.lt_trans small (by decide : 128 < 4096))
  rw [same, huge, next] at kind
  rcases kind with ⟨huge1, _⟩ | ⟨_, found⟩
  · omega
  · exact found

/-- A step to a huge page. -/
theorem Paged.huge {rest : List (Fin 512)} {e : Nat} (paged : Paged m) (upper : UpperTable t)
    (listed : upperEntry t i = e) (bit : e / 128 % 2 = 1) (above : rest ≠ [])
    (run : hwWalk m t (i :: rest) = some entries) : entries = [e] := by
  obtain ⟨present, kind⟩ := hwWalk_cons run
  have same := (paged.entry upper present).trans listed
  rw [same, bit] at kind
  rcases kind with ⟨_, _, leaf⟩ | ⟨single, _⟩
  · exact leaf
  · exact absurd single (by simp only [above, or_false]; decide)

theorem Paged.absent {rest : List (Fin 512)} (paged : Paged m) (upper : UpperTable t) (listed : upperEntry t i = 0) :
    hwWalk m t (i :: rest) ≠ some entries := by
  intro run
  have present := (hwWalk_cons run).1
  rw [(paged.entry upper present).trans listed] at present
  cases present

/-- The pages that both upper halves have writable: the interrupt stack and
the global data. -/
def Global (i j : Fin 512) (entries : List Nat) : Prop :=
  (i = 1 ∧ j = 0 ∧ entries = [pte pdtGs flags, pte 0x1800 gsFlags]) ∨
    (i = 2 ∧ j = 0 ∧ entries = [pte pdtGrw flags, pte 0x1a00 gsFlags]) ∨
    (i = 2 ∧ j = 1 ∧ entries = [pte pdtGrw flags, pte 0x1c00 grwFlags])

theorem Paged.gs_walk (paged : Paged m) (run : hwWalk m pdtGs [j, k] = some entries) :
    j = 0 ∧ entries = [pte 0x1800 gsFlags] := by
  have upper : UpperTable pdtGs := Or.inr (Or.inr (by decide))
  by_cases first : j = 0
  · subst first
    exact ⟨rfl, paged.huge upper rfl (by decide) (List.cons_ne_nil _ _) run⟩
  · exact absurd run (paged.absent upper (if_neg first))

theorem Paged.grw_walk (paged : Paged m) (run : hwWalk m pdtGrw [j, k] = some entries) :
    (j = 0 ∧ entries = [pte 0x1a00 gsFlags]) ∨ (j = 1 ∧ entries = [pte 0x1c00 grwFlags]) := by
  have upper : UpperTable pdtGrw := Or.inr (Or.inr (by decide))
  by_cases first : j = 0
  · subst first
    exact Or.inl ⟨rfl, paged.huge upper rfl (by decide) (List.cons_ne_nil _ _) run⟩
  · by_cases second : j = 1
    · subst second
      exact Or.inr ⟨rfl, paged.huge upper rfl (by decide) (List.cons_ne_nil _ _) run⟩
    · have none : upperEntry pdtGrw j = 0 := (if_neg first).trans (if_neg second)
      exact absurd run (paged.absent upper none)

/-- The last step, to a page of 4 KiB. -/
theorem Paged.page (paged : Paged m) (frame flags : Nat) (upper : UpperTable t)
    (listed : upperEntry t k = pte frame flags) (inRam : frame < 2 ^ 40) (small : flags < 128)
    (run : hwWalk m t [k] = some entries) : entries = [pte frame flags] := by
  obtain ⟨below, inner, same⟩ := paged.link frame flags upper listed inRam small run
  cases inner
  exact same

theorem Paged.global_walk (paged : Paged m) (shared : Shared t) (other : i ≠ 0)
    (run : hwWalk m t [i, j, k] = some entries) : Global i j entries := by
  have upper : UpperTable t := shared.imp_right fun same => Or.inr (by rw [same]; decide)
  by_cases one : i = 1
  · subst one
    have listed : upperEntry t 1 = pte pdtGs flags := by rcases shared with rfl | rfl <;> rfl
    obtain ⟨below, inner, rfl⟩ := paged.link pdtGs flags upper listed (by decide) (by decide) run
    obtain ⟨rfl, rfl⟩ := paged.gs_walk inner
    exact Or.inl ⟨rfl, rfl, rfl⟩
  · by_cases two : i = 2
    · subst two
      have listed : upperEntry t 2 = pte pdtGrw flags := by rcases shared with rfl | rfl <;> rfl
      obtain ⟨below, inner, rfl⟩ := paged.link pdtGrw flags upper listed (by decide) (by decide) run
      rcases paged.grw_walk inner with ⟨rfl, rfl⟩ | ⟨rfl, rfl⟩
      · exact Or.inr (Or.inl ⟨rfl, rfl, rfl⟩)
      · exact Or.inr (Or.inr ⟨rfl, rfl, rfl⟩)
    · have none : upperEntry t i = 0 := by
        rcases shared with rfl | rfl
        · exact (if_neg other).trans ((if_neg one).trans (if_neg two))
        · exact (if_neg other).trans ((if_neg one).trans (if_neg two))
      exact absurd run (paged.absent upper none)

/-- What a driver sees in its upper half. -/
theorem Paged.hproc_walk (paged : Paged m) (run : hwWalk m pdptHproc [i, j, k] = some entries) :
    (i = 0 ∧ j.val < 24 ∧
      entries = [pte pdtHproc present, pte (0x10d + j) present, pte ((j + 1) * 0x200 + k) present]) ∨
    Global i j entries := by
  by_cases zero : i = 0
  · subst zero
    have upper : UpperTable pdptHproc := Or.inr (Or.inr (by decide))
    have upper1 : UpperTable pdtHproc := Or.inr (Or.inr (by decide))
    obtain ⟨below, inner, rfl⟩ := paged.link pdtHproc present upper rfl (by decide) (by decide) run
    by_cases small : j.val < 24
    · have upper2 : UpperTable (0x10d + j) := Or.inr (Or.inr ⟨by unfold pdptHproc; omega, by omega⟩)
      obtain ⟨last, inner2, rfl⟩ := paged.link (0x10d + j) present upper1 (if_pos small) (by omega) (by decide) inner
      rw [paged.page _ _ upper2 upperEntry_process (by omega) (by decide) inner2]
      exact Or.inl ⟨rfl, small, rfl⟩
    · exact absurd inner (paged.absent upper1 (if_neg small))
  · exact Or.inr (paged.global_walk (Or.inr rfl) zero run)

/-- What the kernel and the normal processes see in theirs. -/
theorem Paged.high_walk (paged : Paged m) (run : hwWalk m pdptHigh [i, j, k] = some entries) :
    (i = 0 ∧ j.val < 3 ∧ entries = [pte pdtHigh flags, pte (0x10a + j) flags, pte ((j + 1) * 0x200 + k) flags]) ∨
    (i = 0 ∧ 3 ≤ j.val ∧ j.val < 19 ∧ entries = [pte pdtHigh flags, pte ((j + 1) * 0x200) initrdFlags]) ∨
    Global i j entries := by
  by_cases zero : i = 0
  · subst zero
    have upper : UpperTable pdptHigh := Or.inl rfl
    have upper1 : UpperTable pdtHigh := Or.inr (Or.inl rfl)
    obtain ⟨below, inner, rfl⟩ := paged.link pdtHigh flags upper rfl (by decide) (by decide) run
    by_cases small : j.val < 3
    · have upper2 : UpperTable (0x10a + j) := Or.inr (Or.inr ⟨by unfold pdptHproc; omega, by omega⟩)
      obtain ⟨last, inner2, rfl⟩ := paged.link (0x10a + j) flags upper1 (if_pos small) (by omega) (by decide) inner
      rw [paged.page _ _ upper2 (upperEntry_kernel small) (by omega) (by decide) inner2]
      exact Or.inl ⟨rfl, small, rfl⟩
    · by_cases initrd : j.val < 19
      · have listed : upperEntry pdtHigh j = pte ((j + 1) * 0x200) initrdFlags := (if_neg small).trans (if_pos initrd)
        have bit : pte ((j + 1) * 0x200) initrdFlags / 128 % 2 = 1 := (pte_bits (by omega) (by decide)).2.2.1
        rw [paged.huge upper1 listed bit (List.cons_ne_nil _ _) inner]
        exact Or.inr (Or.inl ⟨rfl, by omega, initrd, rfl⟩)
      · exact absurd inner (paged.absent upper1 ((if_neg small).trans (if_neg initrd)))
  · exact Or.inr (Or.inr (paged.global_walk (Or.inl rfl) zero run))

theorem pteFrame_some {e f : Nat} (single : pteFrame e = some f) : e % 2 = 1 ∧ e / 128 % 2 = 0 ∧ f = e / 4096 % 2 ^ 40 := by
  unfold pteFrame at single
  split at single
  · rename_i both
    exact ⟨both.1, both.2, (Option.some.inj single).symm⟩
  · cases single

theorem Paged.next {f : Nat} (paged : Paged m) (upper : UpperTable t) (next : pteFrame (m.entry t i) = some f) :
    pteFrame (upperEntry t i) = some f := by
  rw [← paged.entry upper (pteFrame_some next).1]
  exact next

theorem pteFrame_upper3 {f : Nat} (shared : Shared t) (next : pteFrame (upperEntry t i) = some f) :
    f = pdtHigh ∨ f = pdtHproc ∨ f = pdtGs ∨ f = pdtGrw := by
  have cases3 {first : Nat} (link : pteFrame (if i = 0 then first else if i = 1 then pte pdtGs flags else
      if i = 2 then pte pdtGrw flags else 0) = some f) : pteFrame first = some f ∨ f = pdtGs ∨ f = pdtGrw := by
    split at link
    · exact Or.inl link
    · split at link
      · exact Or.inr (Or.inl (Option.some.inj link).symm)
      · split at link
        · exact Or.inr (Or.inr (Option.some.inj link).symm)
        · cases link
  rcases shared with rfl | rfl
  · rcases cases3 next with first | other
    · exact Or.inl (Option.some.inj first).symm
    · exact Or.inr (Or.inr other)
  · rcases cases3 next with first | other
    · exact Or.inr (Or.inl (Option.some.inj first).symm)
    · exact Or.inr (Or.inr other)

theorem pteFrame_upper2 {f : Nat} (table : t = pdtHigh ∨ t = pdtHproc ∨ t = pdtGs ∨ t = pdtGrw)
    (next : pteFrame (upperEntry t i) = some f) : f < 0x125 := by
  obtain ⟨_, single, rfl⟩ := pteFrame_some next
  have absent (none : upperEntry t i = 0) : upperEntry t i / 4096 % 2 ^ 40 < 0x125 := by
    rw [none]
    decide
  have huge {e : Nat} (listed : upperEntry t i = e) (bit : e / 128 % 2 = 1) : upperEntry t i / 4096 % 2 ^ 40 < 0x125 := by
    rw [listed] at single
    omega
  rcases table with rfl | rfl | rfl | rfl
  · by_cases small : i.val < 3
    · have listed : upperEntry pdtHigh i = pte (0x10a + i) flags := if_pos small
      rw [listed, (pte_bits (by omega) (by decide)).2.2.2]
      omega
    · by_cases initrd : i.val < 19
      · exact huge ((if_neg small).trans (if_pos initrd)) (pte_bits (by omega) (by decide)).2.2.1
      · exact absent ((if_neg small).trans (if_neg initrd))
  · by_cases small : i.val < 24
    · have listed : upperEntry pdtHproc i = pte (0x10d + i) present := if_pos small
      rw [listed, (pte_bits (by omega) (by decide)).2.2.2]
      omega
    · exact absent (if_neg small)
  · by_cases first : i = 0
    · exact huge (if_pos first) (by decide)
    · exact absent (if_neg first)
  · by_cases first : i = 0
    · exact huge (if_pos first) (by decide)
    · by_cases second : i = 1
      · exact huge ((if_neg first).trans (if_pos second)) (by decide)
      · exact absent ((if_neg first).trans (if_neg second))

/-- The tables of the upper half link each other only. -/
theorem Paged.below {s f : Nat} {p : List (Fin 512)} (paged : Paged m) (shared : Shared s) (short : p.length ≤ 2)
    (reached : tableWalk m s p = some f) : f < 0x125 := by
  have upper : UpperTable s := shared.imp_right fun same => Or.inr (by rw [same]; decide)
  cases p with
  | nil =>
    cases Option.some.inj reached
    exact upper.range.2.1
  | cons i p =>
    obtain ⟨t, first, rest⟩ := Option.bind_eq_some_iff.mp reached
    have table := pteFrame_upper3 shared (paged.next upper first)
    cases p with
    | nil =>
      cases Option.some.inj rest
      rcases table with rfl | rfl | rfl | rfl <;> decide
    | cons j p =>
      obtain ⟨u, second, last⟩ := Option.bind_eq_some_iff.mp rest
      have upper1 : UpperTable t := by
        rcases table with rfl | rfl | rfl | rfl
        · exact Or.inr (Or.inl rfl)
        all_goals exact Or.inr (Or.inr (by decide))
      have done : p = [] := List.eq_nil_of_length_eq_zero (by simp only [List.length_cons] at short; omega)
      subst done
      cases Option.some.inj last
      exact pteFrame_upper2 table (paged.next upper1 second)

theorem Global.index (shared : Global i j entries) : i ≠ 0 := by
  rcases shared with ⟨rfl, _⟩ | ⟨rfl, _⟩ | ⟨rfl, _⟩ <;> decide

theorem Global.unique {other : List Nat} (first : Global i j entries) (second : Global i j other) : entries = other := by
  rcases first with ⟨rfl, rfl, rfl⟩ | ⟨rfl, rfl, rfl⟩ | ⟨rfl, rfl, rfl⟩ <;>
    rcases second with ⟨one, zero, rfl⟩ | ⟨one, zero, rfl⟩ | ⟨one, zero, rfl⟩ <;>
    first | rfl | exact absurd one (by decide) | exact absurd zero (by decide)

end

/-- The indices of an address below level 4. -/
def upperPath (addr : Nat) : List (Fin 512) := (pagePath (addr / 4096)).tail

/-- The addresses behind entry 256 of the level-4 table. -/
def HighAddress (addr : Nat) : Prop := 0xffff800000000000 ≤ addr ∧ addr < 0xffff808000000000

/-- An address that both the drivers and the kernel have in their upper halves
is the same memory for both. -/
def HighAgrees (m : Mem) : Prop :=
  ∀ addr entries entries', HighAddress addr → hwWalk m pdptHproc (upperPath addr) = some entries →
    hwWalk m pdptHigh (upperPath addr) = some entries' → physAddr 3 entries addr = physAddr 3 entries' addr

/-- In their upper half drivers can write the interrupt stack and the global
data only. -/
def HighWritesGlobal (m : Mem) : Prop :=
  ∀ addr entries, HighAddress addr → hwWalk m pdptHproc (upperPath addr) = some entries → Writable entries →
    (0xffff800040000000 ≤ addr ∧ addr < 0xffff800040000000 + 0x200000) ∨
      (0xffff800080000000 ≤ addr ∧ addr < 0xffff800080000000 + 0x400000)

/-- No driver can write the kernel's tables, its image or the initial programs
through any of its addresses. -/
def Kernel.DriversConfined (k : Kernel) : Prop :=
  ∀ i root, k.Space .driver i root → ∀ addr entries, hwWalk k.mem root (pagePath (addr / 4096)) = some entries →
    Writable entries → ¬(0x100000 ≤ physAddr 4 entries addr ∧ physAddr 4 entries addr < 0x1800000)

section
variable {m : Mem} {addr : Nat} {entries : List Nat}

/-- The kernel's image from 2 MiB on lies at the start of both upper halves. -/
theorem image_page {first second : Nat} (flags : Nat) (small : flags < 4096) (low : addr / 2 ^ 21 % 512 < 24) :
    physAddr 3 [first, second, pte (((Fin.ofNat 512 (addr / 4096 / 512)).val + 1) * 0x200 +
      (Fin.ofNat 512 (addr / 4096)).val) flags] addr = 0x200000 + addr % 2 ^ 30 := by
  refine (physAddr_page rfl).trans ?_
  rw [Fin.val_ofNat, Fin.val_ofNat]
  change pte _ flags / 4096 % 2 ^ 40 * 4096 + addr % 4096 = _
  rw [(pte_bits (by omega) small).2.2.2]
  omega

theorem image_huge {first : Nat} :
    physAddr 3 [first, pte (((Fin.ofNat 512 (addr / 4096 / 512)).val + 1) * 0x200) initrdFlags] addr =
      0x200000 + addr % 2 ^ 30 := by
  refine (physAddr_huge rfl).trans ?_
  rw [Fin.val_ofNat]
  change pte _ initrdFlags / 2 ^ 21 % 2 ^ 31 * 2 ^ 21 + addr % 2 ^ 21 = _
  have value : initrdFlags = 0x81 := rfl
  unfold pte
  rw [value]
  omega

theorem Paged.highAgrees (paged : Paged m) : HighAgrees m := by
  intro addr entries entries' _ run run'
  have index : (Fin.ofNat 512 (addr / 4096 / 512)).val = addr / 2 ^ 21 % 512 := by
    rw [Fin.val_ofNat]
    omega
  unfold upperPath pagePath at run run'
  rcases paged.hproc_walk run with ⟨zero, small, rfl⟩ | shared
  · rw [image_page _ (by decide) (index ▸ small)]
    rcases paged.high_walk run' with ⟨_, small', rfl⟩ | ⟨_, _, small', rfl⟩ | shared
    · rw [image_page _ (by decide) (by omega)]
    · rw [image_huge]
    · exact absurd zero shared.index
  · rcases paged.high_walk run' with ⟨zero, _⟩ | ⟨zero, _⟩ | shared'
    · exact absurd zero shared.index
    · exact absurd zero shared.index
    · rw [shared.unique shared']

theorem Paged.highWritesGlobal (paged : Paged m) : HighWritesGlobal m := by
  intro addr entries ⟨lower, upper⟩ run writable
  unfold upperPath pagePath at run
  rcases paged.hproc_walk run with ⟨_, _, rfl⟩ | shared
  · have last := writable _ (List.mem_cons_self ..)
    cases last
  · simp only [Global, Fin.ext_iff, Fin.val_ofNat] at shared
    rcases shared with ⟨one, zero, _⟩ | ⟨two, zero, _⟩ | ⟨two, one, _⟩
    · change _ = 1 at one
      change _ = 0 at zero
      exact Or.inl (by omega)
    · change _ = 2 at two
      change _ = 0 at zero
      exact Or.inr (by omega)
    · change _ = 2 at two
      change _ = 1 at one
      exact Or.inr (by omega)

/-- The pages that both upper halves have writable lie above the initial programs. -/
theorem Global.above {i j : Fin 512} (shared : Global i j entries) (first : Nat) :
    0x1800000 ≤ physAddr 4 (first :: entries) addr := by
  have length : entries.length = 2 := by rcases shared with ⟨_, _, rfl⟩ | ⟨_, _, rfl⟩ | ⟨_, _, rfl⟩ <;> rfl
  rw [physAddr_huge (congrArg (· + 2) length)]
  refine Nat.le_trans ?_ (Nat.le_add_right _ _)
  rcases shared with ⟨_, _, rfl⟩ | ⟨_, _, rfl⟩ | ⟨_, _, rfl⟩
  · exact (by decide : 0x1800000 ≤ pte 0x1800 gsFlags / 2 ^ 21 % 2 ^ 31 * 2 ^ 21)
  · exact (by decide : 0x1800000 ≤ pte 0x1a00 gsFlags / 2 ^ 21 % 2 ^ 31 * 2 ^ 21)
  · exact (by decide : 0x1800000 ≤ pte 0x1c00 grwFlags / 2 ^ 21 % 2 ^ 31 * 2 ^ 21)

end

namespace Kernel
variable {k : Kernel} {R : Set Nat} {root addr : Nat} {entries : List Nat}

/-- The lower halves lead to frames that were handed out. -/
theorem Valid.low_phys (valid : k.Valid R) (member : root ∈ R)
    (single : LowEntries (fun _ e => e = 0 ∨ pteFrame e ≠ none) k.mem R)
    (low : (Fin.ofNat 512 (addr / 4096 / 512 ^ 3)).val < 256)
    (run : hwWalk k.mem root (pagePath (addr / 4096)) = some entries) :
    k.alloc.reserved * 4096 ≤ physAddr 4 entries addr := by
  obtain ⟨q, i, rest, u, path, place, reached, leaf, length, present, kind⟩ := hwWalk_low low run
  have table : pteFrame (k.mem.entry u i) ≠ none := by
    refine (single root member q i u place reached).resolve_left fun zero => ?_
    rw [zero] at present
    cases present
  have small : k.mem.entry u i / 128 % 2 = 0 := by
    by_contra huge
    exact table (if_neg fun both => huge both.2)
  have last : rest = [] := kind.resolve_right (by omega)
  have frame := pteFrame_table present small
  have mapped : tableWalk k.mem root (q ++ [i]) = some (k.mem.entry u i / 4096 % 2 ^ 40) := by
    rw [tableWalk, Forest.walk_through reached, frame]
    rfl
  have taken := (valid.stage.owns.spaces.placed _ ⟨root, _, member, place, mapped⟩).2
  have depth : entries.length = 4 := by
    have whole := congrArg List.length path
    rw [last, List.length_append] at whole
    exact length.trans whole.symm
  rw [physAddr_page depth, leaf]
  omega

theorem Valid.driversConfined (valid : k.Valid R) (paged : Paged k.mem) (reserved : k.alloc.reserved = usedPage)
    (single : LowEntries (fun _ e => e = 0 ∨ pteFrame e ≠ none) k.mem R) : k.DriversConfined := by
  intro i root space addr entries run writable ⟨lower, upper⟩
  obtain ⟨member, half⟩ := space.root valid.slots
  by_cases low : (Fin.ofNat 512 (addr / 4096 / 512 ^ 3)).val < 256
  · have above := valid.low_phys member single low run
    rw [reserved] at above
    exact absurd above (by unfold usedPage; omega)
  · obtain ⟨present, kind⟩ := hwWalk_cons run
    rcases half _ (Nat.le_of_not_lt low) with zero | ⟨_, linked⟩
    · rw [zero] at present
      cases present
    · rw [linked] at kind
      rcases kind with ⟨huge, _⟩ | ⟨_, below, inner, rfl⟩
      · cases huge
      · rcases paged.hproc_walk inner with ⟨_, _, rfl⟩ | shared
        · have last := writable _ (List.mem_cons_of_mem _ (List.mem_cons_self ..))
          cases last
        · exact absurd (shared.above _) (Nat.not_le.mpr upper)

/-- The state in which the first process is created, with the tables of the
upper half as `paging::init` has filled them. -/
structure Booted (map : MemoryMap) (k : Kernel) : Prop where
  alloc : ∃ initial live freed, FrameAlloc.init map usedPage = some initial ∧
    FrameAlloc.AllocReach initial k.alloc live freed
  sched : k.sched = {}
  tables : ∃ m oldPml4, ∀ t j, UpperTable t → k.mem.entry t j = (Paging.init (clearTables m) oldPml4).entry t j

theorem Booted.paged {map : MemoryMap} (booted : Booted map k) : Paged k.mem := by
  obtain ⟨m, oldPml4, same⟩ := booted.tables
  exact fun t j upper => Or.inl ((same t j upper).trans (init_upper oldPml4 upper))

theorem Booted.boot {map : MemoryMap} (booted : Booted map k) : k.Boot map := by
  refine ⟨booted.alloc, booted.sched, fun s shared p f short reached => ?_⟩
  exact Nat.lt_trans (booted.paged.below shared short reached) (by decide)

theorem Goes.paged {start : Kernel} (goes : Goes ∅ R start k) {map : MemoryMap} (booted : Booted map start) : Paged k.mem := by
  intro t j upper
  have below : t < start.alloc.reserved := by
    rw [booted.boot.reserved]
    exact Nat.lt_trans upper.range.2.1 (by decide)
  rcases goes.edits.protected_entry booted.boot.valid.stage.owns (Or.inl below) with same | ⟨_, zero⟩
  · rw [show k.mem.entry t j = start.mem.entry t j from same]
    exact booted.paged t j upper
  · exact Or.inr zero

/-- Drivers share the upper half with the kernel, can write its interrupt
stack and its global data, and nothing else of the kernel's memory. -/
theorem drivers_confined (mapper : PageMapper) (parse : List UInt8 → Option Image) {map : MemoryMap} {start : Kernel}
    {tables : Set Nat} (booted : Booted map start) (reach : Reach mapper parse start k tables) :
    HighAgrees k.mem ∧ HighWritesGlobal k.mem ∧ k.DriversConfined := by
  obtain ⟨R, goes, _⟩ := reach.goes mapper parse booted.boot
  have owned := booted.boot.valid.stage.owns
  have paged := goes.paged booted
  have single := goes.edits.lowEntries entryRule_single owned fun _ none => nomatch none
  have reserved := (goes.edits.reserved owned).trans booted.boot.reserved
  exact ⟨paged.highAgrees, paged.highWritesGlobal, goes.valid.driversConfined paged reserved single⟩

/-- The small machine right after `paging::init`. -/
def pagedKernel : Kernel where
  mem := Paging.init (clearTables fun _ => 0) 0
  alloc := smallAlloc

theorem pagedKernel_booted : Booted [⟨0, 0x2000000, .freeRAM⟩] pagedKernel :=
  ⟨⟨smallAlloc, [], [], init_small, .init⟩, rfl, _, _, fun _ _ _ => rfl⟩

/-- The first driver of the small machine, with its stack as writable memory. -/
theorem drivers_confined_first_driver :
    ∃ k tables, Reach FourLevel.mapper flatParse pagedKernel k tables ∧ k.Space .driver 0 0x1e02 ∧
      (∃ entries, hwWalk k.mem 0x1e02 (pagePath 0x7fffffffe) = some entries ∧ Writable entries) ∧
      HighAgrees k.mem ∧ HighWritesGlobal k.mem ∧ k.DriversConfined := by
  have run : ((pagedKernel.step FourLevel.mapper flatParse (.create [1, 0x90] 0)).map fun k =>
      ((k.sched.slot .driver 0).tableAddr, (hwWalk k.mem 0x1e02 (pagePath 0x7fffffffe)).map fun entries =>
        entries.map fun e => e / 2 % 2)) = some (0x1e02 * 4096, some [1, 1, 1, 1]) := by
    decide +kernel
  obtain ⟨k, first, same⟩ := Option.map_eq_some_iff.mp run
  obtain ⟨table, walk⟩ := Prod.mk.inj same
  obtain ⟨entries, walk, bits⟩ := Option.map_eq_some_iff.mp walk
  have writable : Writable entries := by
    intro e member
    have bit : e / 2 % 2 ∈ entries.map fun e => e / 2 % 2 := List.mem_map_of_mem member
    rw [bits] at bit
    simpa only [List.mem_cons, List.not_mem_nil, or_false, or_self] using bit
  have reach := Reach.boot.next (by exact trivial) first
  exact ⟨k, _, reach, ⟨table, by decide⟩, ⟨entries, walk, writable⟩,
    drivers_confined FourLevel.mapper flatParse pagedKernel_booted reach⟩

end Kernel

/-- Ring 3 may use the page: every entry of its walk says so. -/
def UserAccessible (entries : List Nat) : Prop := ∀ e ∈ entries, e / 4 % 2 = 1

/-- The address is one that ring 3 can use on the tables below `root`. -/
def UserVisible (m : Mem) (root addr : Nat) : Prop :=
  ∃ entries, hwWalk m root (pagePath (addr / 4096)) = some entries ∧ UserAccessible entries

/-- The area that is meant for the kernel, the drivers and user programs. -/
def SharedWindow (addr : Nat) : Prop := 0xffff800080200000 ≤ addr ∧ addr < 0xffff800080400000

namespace Kernel
variable {k : Kernel} {R : Set Nat} {root addr : Nat}

/-- Whatever the tables below it say, the entry of the level-4 table lets no
user program into the upper half. -/
theorem UpperHalf.not_userVisible {typ : ProcType} {m : Mem} (half : UpperHalf typ m root) (lower : 0xffff800000000000 ≤ addr)
    (upper : addr < 2 ^ 64) : ¬UserVisible m root addr := by
  rintro ⟨entries, run, user⟩
  have high : 256 ≤ (Fin.ofNat 512 (addr / 4096 / 512 ^ 3)).val := by
    rw [Fin.val_ofNat]
    omega
  obtain ⟨present, kind⟩ := hwWalk_cons run
  have first : m.entry root (Fin.ofNat 512 (addr / 4096 / 512 ^ 3)) ∈ entries := by
    rcases kind with ⟨_, _, rfl⟩ | ⟨_, below, _, rfl⟩
    · exact List.mem_cons_self ..
    · exact List.mem_cons_self ..
  have bit := user _ first
  rcases half _ high with zero | ⟨_, linked⟩
  · rw [zero] at present
    cases present
  · rw [linked] at bit
    cases typ <;> cases bit

/-- A normal process has the upper half that it should have only where it should
have nothing: its level-4 table has no entry for user programs, and so the
shared window is not there for it. -/
theorem shared_window_iff (mapper : PageMapper) (parse : List UInt8 → Option Image) {map : MemoryMap} {start : Kernel}
    {tables : Set Nat} {i : Nat} (booted : Booted map start) (reach : Reach mapper parse start k tables)
    (space : k.Space .normal i root) (lower : 0xffff800000000000 ≤ addr) (upper : addr < 2 ^ 64) :
    (UserVisible k.mem root addr ↔ SharedWindow addr) ↔ ¬SharedWindow addr := by
  obtain ⟨R, goes, _⟩ := reach.goes mapper parse booted.boot
  have hidden := (space.root goes.valid.slots).2.not_userVisible lower upper
  simp only [hidden, false_iff]

/-- The first process of the small machine. -/
theorem first_process_paged :
    ∃ k tables, Reach FourLevel.mapper flatParse pagedKernel k tables ∧ k.Space .normal 0 0x1e02 := by
  have run : ((pagedKernel.step FourLevel.mapper flatParse (.create [0x90] 0)).map fun k =>
      (k.sched.slot .normal 0).tableAddr) = some (0x1e02 * 4096) := by
    decide +kernel
  obtain ⟨k, first, table⟩ := Option.map_eq_some_iff.mp run
  exact ⟨k, _, Reach.boot.next (by exact trivial) first, ⟨table, by decide⟩⟩

theorem kernel_hidden_first_process :
    ∃ k tables, Reach FourLevel.mapper flatParse pagedKernel k tables ∧ k.Space .normal 0 0x1e02 ∧
      (UserVisible k.mem 0x1e02 0xffff800080000000 ↔ SharedWindow 0xffff800080000000) := by
  obtain ⟨k, tables, reach, space⟩ := first_process_paged
  refine ⟨k, tables, reach, space, ?_⟩
  rw [shared_window_iff FourLevel.mapper flatParse pagedKernel_booted reach space (by decide) (by decide)]
  exact fun inside => absurd inside.1 (by decide)

theorem shared_window_hidden_first_process :
    ∃ k tables, Reach FourLevel.mapper flatParse pagedKernel k tables ∧ k.Space .normal 0 0x1e02 ∧
      SharedWindow 0xffff800080200000 ∧ ¬UserVisible k.mem 0x1e02 0xffff800080200000 := by
  obtain ⟨k, tables, reach, space⟩ := first_process_paged
  obtain ⟨R, goes, _⟩ := reach.goes FourLevel.mapper flatParse pagedKernel_booted.boot
  have half := (space.root goes.valid.slots).2
  exact ⟨k, tables, reach, space, ⟨by decide, by decide⟩, half.not_userVisible (by decide) (by decide)⟩

end Kernel

end ProkaKernel
