import ProkaKernel.Paging

namespace ProkaKernel

namespace Paging
open PageFlags

/-- The frames of the kernel's tables (`PML4_ADDR` and so on). -/
def pml4 : Nat := 0x100
def pdptLow : Nat := 0x102
def pdtLow : Nat := 0x103
def pdtHigh : Nat := 0x104
def ptLow : Nat := 0x105
def pdtHproc : Nat := 0x107
def pdtGs : Nat := 0x108
def pdtGrw : Nat := 0x109
def pdtLow2 : Nat := 0x10a

def flags : Nat := present ||| writable
def hugeFlags : Nat := flags ||| hugePage
def initrdFlags : Nat := present ||| hugePage
def gsFlags : Nat := hugeFlags ||| globalPage ||| noExecute
def grwFlags : Nat := hugeFlags ||| globalPage ||| userAccessible ||| noExecute

/-- The clearing of the table area in `memory::init`. -/
def clearTables (m : Mem) : Mem := fun x => if 0x100000 ≤ x ∧ x < 0x1fffff then 0 else m x

/-- The identity mapping of the lowest 1 GiB. -/
def identityLow (m : Mem) : Mem :=
  let m := m.setEntry pml4 0 (pte pdptLow flags)
  let m := m.setEntry pdptLow 0 (pte pdtLow flags)
  let m := m.setEntry pdtLow 0 (pte ptLow flags)
  let m := (List.finRange 512).foldl (fun m i => m.setEntry ptLow i (pte i flags)) m
  ((List.finRange 512).drop 1).foldl (fun m i => m.setEntry pdtLow i (pte (i * 0x200) hugeFlags)) m

/-- The loop that maps the physical memory from 2 MiB on through 4 KiB pages,
with its tables in the frames from `current` on. -/
def mapTables (pdt flags : Nat) : Nat → Nat → Nat → Mem → Mem × Nat
  | 0, _, current, m => (m, current)
  | left + 1, iPdt, current, m =>
    let base := 0x200 + iPdt * 0x200
    let m := (List.finRange 512).foldl (fun m i => m.setEntry current i (pte (base + i) flags)) m
    mapTables pdt flags left (iPdt + 1) (current + 1) (m.setEntry pdt (Fin.ofNat 512 iPdt) (pte current flags))

/-- The pages of 2 MiB behind the kernel, for the initial programs. -/
def mapInitrd (m : Mem) : Mem :=
  ((List.finRange 512).drop 3 |>.take 16).foldl
    (fun m i => m.setEntry pdtHigh i (pte (0x800 + (i - 3) * 0x200) initrdFlags)) m

/-- The interrupt stack and the global data, in both upper halves. -/
def mapGlobals (m : Mem) : Mem :=
  let m := m.setEntry pdptHigh 1 (pte pdtGs flags)
  let m := m.setEntry pdptHproc 1 (pte pdtGs flags)
  let m := m.setEntry pdtGs 0 (pte 0x1800 gsFlags)
  let m := m.setEntry pdptHigh 2 (pte pdtGrw flags)
  let m := m.setEntry pdptHproc 2 (pte pdtGrw flags)
  let m := m.setEntry pdtGrw 0 (pte 0x1a00 gsFlags)
  m.setEntry pdtGrw 1 (pte 0x1c00 grwFlags)

/-- `paging::init`; `oldPml4` is the table that was in CR3 before. -/
def init (m : Mem) (oldPml4 : Nat) : Mem :=
  let m := identityLow m
  let m := m.setEntry pml4 256 (pte pdptHigh flags)
  let m := m.setEntry pdptHigh 0 (pte pdtHigh flags)
  let (m, current) := mapTables pdtHigh flags 3 0 pdtLow2 m
  let m := mapGlobals (mapInitrd m)
  let m := m.setEntry pdptHproc 0 (pte pdtHproc present)
  let (m, _) := mapTables pdtHproc present 24 0 current m
  m.setEntry pml4 448 (pte (m.entry oldPml4 448 / 4096 % 2 ^ 40) flags)

/-- The tables of the upper half below `PDPT_HIGH` and `PDPT_HPROC`. -/
def UpperTable (t : Nat) : Prop := t = pdptHigh ∨ t = pdtHigh ∨ (pdptHproc ≤ t ∧ t < 0x125)

/-- What `init` leaves in these tables. -/
def upperEntry (t : Nat) (j : Fin 512) : Nat :=
  if t = pdptHigh then
    if j = 0 then pte pdtHigh flags else if j = 1 then pte pdtGs flags else if j = 2 then pte pdtGrw flags else 0
  else if t = pdtHigh then
    if j.val < 3 then pte (0x10a + j) flags else if j.val < 19 then pte ((j + 1) * 0x200) initrdFlags else 0
  else if t = pdptHproc then
    if j = 0 then pte pdtHproc present else if j = 1 then pte pdtGs flags else if j = 2 then pte pdtGrw flags else 0
  else if t = pdtHproc then if j.val < 24 then pte (0x10d + j) present else 0
  else if t = pdtGs then if j = 0 then pte 0x1800 gsFlags else 0
  else if t = pdtGrw then if j = 0 then pte 0x1a00 gsFlags else if j = 1 then pte 0x1c00 grwFlags else 0
  else if t < 0x10d then pte ((t - 0x10a + 1) * 0x200 + j) flags
  else pte ((t - 0x10d + 1) * 0x200 + j) present

section
variable {j k : Fin 512}

theorem upperEntry_kernel (small : j.val < 3) : upperEntry (0x10a + j) k = pte ((j + 1) * 0x200 + k) flags := by
  unfold upperEntry pdptHigh pdtHigh pdptHproc pdtHproc pdtGs pdtGrw
  repeat rw [if_neg (by omega)]
  rw [if_pos (by omega), Nat.add_sub_cancel_left]

theorem upperEntry_process : upperEntry (0x10d + j) k = pte ((j + 1) * 0x200 + k) present := by
  unfold upperEntry pdptHigh pdtHigh pdptHproc pdtHproc pdtGs pdtGrw
  repeat rw [if_neg (by omega)]
  rw [Nat.add_sub_cancel_left]

end

theorem pte_small {frame flags : Nat} (inRam : frame < 2 ^ 40) (small : flags < 4096) : pte frame flags < 2 ^ 64 := by
  unfold pte
  omega

section
variable {pdt flags : Nat}

/-- The entries after the loop: the tables it built, and the links to them. -/
theorem mapTables_entry (left iPdt current : Nat) (m : Mem) (small : flags < 4096) (range : iPdt + left ≤ 512)
    (inRam : current + left ≤ 2 ^ 20) (apart : pdt < current) (u : Nat) (j : Fin 512) :
    (mapTables pdt flags left iPdt current m).1.entry u j =
      if u = pdt ∧ iPdt ≤ j.val ∧ j.val < iPdt + left then pte (current + (j - iPdt)) flags
      else if current ≤ u ∧ u < current + left then pte ((iPdt + (u - current) + 1) * 0x200 + j) flags
      else m.entry u j := by
  induction left generalizing iPdt current m with
  | zero =>
    rw [if_neg (by omega), if_neg (by omega)]
    rfl
  | succ left ih =>
    have index : (Fin.ofNat 512 iPdt).val = iPdt := Nat.mod_eq_of_lt (by omega)
    have pages (i : Fin 512) : pte (0x200 + iPdt * 0x200 + i) flags < 2 ^ 64 := pte_small (by omega) small
    rw [mapTables, ih (iPdt + 1) (current + 1) _ (by omega) (by omega) (by omega),
      Mem.entry_setEntry _ _ _ (pte_small (by omega) small), Mem.entry_foldl _ _ pages]
    simp only [List.mem_finRange, and_true, Fin.ext_iff, index]
    by_cases link : u = pdt
    · rw [if_neg (by omega : ¬(current + 1 ≤ u ∧ u < current + 1 + left)), if_neg (by omega : ¬u = current),
        if_neg (by omega : ¬(current ≤ u ∧ u < current + (left + 1)))]
      rcases Nat.lt_trichotomy j.val iPdt with before | here | after
      · rw [if_neg (by omega), if_neg (by omega), if_neg (by omega)]
      · rw [if_neg (by omega), if_pos ⟨link, here⟩, if_pos (by omega), here, Nat.sub_self, Nat.add_zero]
      · by_cases inside : j.val < iPdt + (left + 1)
        · rw [if_pos (by omega), if_pos (by omega), show current + 1 + (j - (iPdt + 1)) = current + (j - iPdt) by omega]
        · rw [if_neg (by omega), if_neg (by omega), if_neg (by omega)]
    · simp only [link, false_and, if_false]
      rcases Nat.lt_trichotomy u current with before | here | after
      · rw [if_neg (by omega), if_neg (by omega), if_neg (by omega)]
      · rw [if_neg (by omega), if_pos here, if_pos (by omega), here, Nat.sub_self]
        exact congrArg (fun frame => pte frame flags) (by omega)
      · by_cases inside : u < current + (left + 1)
        · rw [if_pos (by omega), if_pos (by omega), show iPdt + 1 + (u - (current + 1)) = iPdt + (u - current) by omega]
        · rw [if_neg (by omega), if_neg (by omega), if_neg (by omega)]

theorem mapTables_current (left iPdt current : Nat) (m : Mem) :
    (mapTables pdt flags left iPdt current m).2 = current + left := by
  induction left generalizing iPdt current m with
  | zero => rfl
  | succ left ih =>
    rw [mapTables, ih]
    omega

end

section
variable {t : Nat} {j : Fin 512} {m : Mem}

theorem UpperTable.range (upper : UpperTable t) : 0x101 ≤ t ∧ t < 0x125 ∧ t ≠ pdptLow ∧ t ≠ pdtLow ∧ t ≠ ptLow := by
  unfold UpperTable pdptHigh pdtHigh pdptHproc at upper
  unfold pdptLow pdtLow ptLow
  omega

theorem identityLow_upper (upper : UpperTable t) : (identityLow (clearTables m)).entry t j = 0 := by
  obtain ⟨lower, below, low, pdt, pt⟩ := upper.range
  have huge (i : Fin 512) : pte (i * 0x200) hugeFlags < 2 ^ 64 := pte_small (by omega) (by decide)
  have pages (i : Fin 512) : pte i flags < 2 ^ 64 := pte_small (by omega) (by decide)
  have cleared : (clearTables m).entry t j = 0 := Mem.load_zero fun x above before => if_pos (by omega)
  unfold identityLow
  rw [Mem.entry_foldl _ _ huge, if_neg fun both => pdt both.1, Mem.entry_foldl _ _ pages, if_neg fun both => pt both.1,
    Mem.entry_setEntry_of_ne _ _ fun both => pdt both.1, Mem.entry_setEntry_of_ne _ _ fun both => low both.1,
    Mem.entry_setEntry_of_ne _ _ fun both => absurd both.1 (by unfold pml4; omega), cleared]

theorem mem_initrd : ∀ j : Fin 512, j ∈ ((List.finRange 512).drop 3).take 16 ↔ 3 ≤ j.val ∧ j.val < 19 := by
  decide +kernel

/-- The kernel's tables for the upper half are as listed. -/
theorem init_upper (oldPml4 : Nat) (upper : UpperTable t) :
    (init (clearTables m) oldPml4).entry t j = upperEntry t j := by
  have blank := identityLow_upper (m := m) (j := j) upper
  have initrd (i : Fin 512) : pte (0x800 + (i - 3) * 0x200) initrdFlags < 2 ^ 64 := pte_small (by omega) (by decide)
  obtain ⟨lower, below, _⟩ := upper.range
  have first : ¬(t = pml4 ∧ j = 448) := fun both => absurd both.1 (by unfold pml4; omega)
  have second : ¬(t = pml4 ∧ j = 256) := fun both => absurd both.1 (by unfold pml4; omega)
  unfold init
  dsimp only
  rw [Mem.entry_setEntry_of_ne _ _ first, mapTables_entry _ _ _ _ (by decide) (by decide) (by rw [mapTables_current]; decide)
    (by rw [mapTables_current]; decide), mapTables_current, Mem.entry_setEntry _ _ _ (by decide)]
  unfold mapGlobals mapInitrd
  dsimp only
  rw [Mem.entry_setEntry _ _ _ (by decide), Mem.entry_setEntry _ _ _ (by decide), Mem.entry_setEntry _ _ _ (by decide),
    Mem.entry_setEntry _ _ _ (by decide), Mem.entry_setEntry _ _ _ (by decide), Mem.entry_setEntry _ _ _ (by decide),
    Mem.entry_setEntry _ _ _ (by decide), Mem.entry_foldl _ _ initrd, mapTables_entry _ _ _ _ (by decide) (by decide)
    (by decide) (by decide), Mem.entry_setEntry _ _ _ (by decide), Mem.entry_setEntry_of_ne _ _ second, blank]
  simp only [mem_initrd]
  unfold upperEntry
  unfold UpperTable at upper
  simp only [pdptHigh, pdtHproc, pdptHproc, pdtGs, pdtGrw, pdtHigh, pdtLow2] at upper ⊢
  clear initrd blank first second
  rcases upper with rfl | rfl | ⟨above, _⟩
  · grind
  · grind
  · have each : t = 262 ∨ t = 263 ∨ t = 264 ∨ t = 265 ∨ t = 266 ∨ t = 267 ∨ t = 268 ∨ 269 ≤ t := by omega
    rcases each with rfl | rfl | rfl | rfl | rfl | rfl | rfl | process
    all_goals grind

end

end Paging

end ProkaKernel
