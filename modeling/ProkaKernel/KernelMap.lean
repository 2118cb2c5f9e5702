import ProkaKernel.HardwareWalk
import ProkaKernel.PagingInit

namespace ProkaKernel

/-- The physical address to which the tables below `root` translate `addr`. -/
def hwTranslate (m : Mem) (root addr : Nat) : Option Nat :=
  (hwWalk m root (pagePath (addr / 4096))).map fun entries => physAddr 4 entries addr

namespace Paging

/-- The first address below `PML4[256]`. -/
def kernelBase : Nat := 0xffff800000000000

def initprtBase : Nat := 0xffff800000600000
def initprtLength : Nat := 0x1000000

/-- The frames of the tables with fixed addresses. -/
def fixedTables : List Nat := [pml4, pdptHigh, pdptLow, pdtLow, pdtHigh, ptLow, pdptHproc, pdtHproc, pdtGs, pdtGrw]

/-- The frames that the two loops took from the running pointer, as they linked
them. -/
def runningTables (m : Mem) : List Nat :=
  ((List.finRange 512).take 3).map (fun i => m.entry pdtHigh i / 4096 % 2 ^ 40) ++
    ((List.finRange 512).take 24).map (fun i => m.entry pdtHproc i / 4096 % 2 ^ 40)

section
variable {t off : Nat} {j : Fin 512} (m : Mem) (oldPml4 : Nat)

/-- The rest of `init` adds two entries to the tables of the identity mapping. -/
theorem init_lower (apart : ¬UpperTable t) (mapped : ¬(t = pml4 ∧ j = 448)) :
    (init m oldPml4).entry t j =
      if t = pml4 ∧ j = 256 then pte pdptHigh flags else (identityLow m).entry t j := by
  have initrd (i : Fin 512) : pte (0x800 + (i - 3) * 0x200) initrdFlags < 2 ^ 64 := pte_small (by omega) (by decide)
  have other (u : Nat) (i : Fin 512) (upper : UpperTable u) : ¬(t = u ∧ j = i) := by
    rintro ⟨rfl, _⟩
    exact apart upper
  have high : UpperTable pdptHigh := Or.inl rfl
  have pdt : UpperTable pdtHigh := Or.inr (Or.inl rfl)
  have hproc : UpperTable pdptHproc := Or.inr (Or.inr (by decide))
  have pdtProc : UpperTable pdtHproc := Or.inr (Or.inr (by decide))
  have gs : UpperTable pdtGs := Or.inr (Or.inr (by decide))
  have grw : UpperTable pdtGrw := Or.inr (Or.inr (by decide))
  have outside : ¬(0x10a ≤ t ∧ t < 0x125) := fun both => apart (Or.inr (Or.inr ⟨by unfold pdptHproc; omega, both.2⟩))
  unfold init
  dsimp only
  rw [Mem.entry_setEntry_of_ne _ _ mapped, mapTables_entry _ _ _ _ (by decide) (by decide)
    (by rw [mapTables_current]; decide) (by rw [mapTables_current]; decide), mapTables_current,
    if_neg fun both => other pdtHproc j pdtProc ⟨both.1, rfl⟩, if_neg (by unfold pdtLow2; omega),
    Mem.entry_setEntry_of_ne _ _ (other _ _ hproc)]
  unfold mapGlobals mapInitrd
  dsimp only
  rw [Mem.entry_setEntry_of_ne _ _ (other _ _ grw), Mem.entry_setEntry_of_ne _ _ (other _ _ grw),
    Mem.entry_setEntry_of_ne _ _ (other _ _ hproc), Mem.entry_setEntry_of_ne _ _ (other _ _ high),
    Mem.entry_setEntry_of_ne _ _ (other _ _ gs), Mem.entry_setEntry_of_ne _ _ (other _ _ hproc),
    Mem.entry_setEntry_of_ne _ _ (other _ _ high), Mem.entry_foldl _ _ initrd,
    if_neg fun both => other pdtHigh j pdt ⟨both.1, rfl⟩, mapTables_entry _ _ _ _ (by decide) (by decide) (by decide)
    (by decide), if_neg fun both => other pdtHigh j pdt ⟨both.1, rfl⟩, if_neg (by unfold pdtLow2; omega),
    Mem.entry_setEntry_of_ne _ _ (other _ _ high), Mem.entry_setEntry _ _ _ (by decide)]

/-- What `init` leaves in the tables of the identity mapping; of the level-4
table, the two entries for the lower and the upper half. -/
def lowerEntry (t : Nat) (j : Fin 512) : Nat :=
  if t = pml4 then if j = 256 then pte pdptHigh flags else pte pdptLow flags
  else if t = pdptLow then if j = 0 then pte pdtLow flags else 0
  else if t = pdtLow then if j = 0 then pte ptLow flags else pte (j * 0x200) hugeFlags
  else pte j flags

/-- The tables of the identity mapping, with the entries of the level-4 table
that `init` writes itself. -/
def LowerPlace (t : Nat) (j : Fin 512) : Prop :=
  t = pdptLow ∨ t = pdtLow ∨ t = ptLow ∨ (t = pml4 ∧ (j = 0 ∨ j = 256))

theorem mem_huge : j ∈ (List.finRange 512).drop 1 ↔ j ≠ 0 := by
  rw [List.finRange_succ, List.drop_one, List.tail_cons, List.mem_map]
  simp only [List.mem_finRange, true_and, Fin.exists_succ_eq]

theorem init_lower_entry (place : LowerPlace t j) : (init (clearTables m) oldPml4).entry t j = lowerEntry t j := by
  have huge (i : Fin 512) : pte (i * 0x200) hugeFlags < 2 ^ 64 := pte_small (by omega) (by decide)
  have pages (i : Fin 512) : pte i flags < 2 ^ 64 := pte_small (by omega) (by decide)
  have table : t = 0x100 ∨ t = 0x102 ∨ t = 0x103 ∨ t = 0x105 := by
    unfold LowerPlace pdptLow pdtLow ptLow pml4 at place
    omega
  have cleared : (clearTables m).entry t j = 0 := Mem.load_zero fun x above before => if_pos (by omega)
  have apart : ¬UpperTable t := by
    unfold UpperTable pdptHigh pdtHigh pdptHproc
    omega
  have mapped : ¬(t = pml4 ∧ j = 448) := by
    rintro ⟨rfl, rfl⟩
    exact absurd place (by unfold LowerPlace; decide)
  rw [init_lower _ _ apart mapped]
  unfold identityLow
  rw [Mem.entry_foldl _ _ huge, Mem.entry_foldl _ _ pages, Mem.entry_setEntry _ _ _ (by decide),
    Mem.entry_setEntry _ _ _ (by decide), Mem.entry_setEntry _ _ _ (by decide), cleared]
  simp only [mem_huge, List.mem_finRange, and_true]
  unfold lowerEntry
  unfold LowerPlace at place
  simp only [pdptLow, pdtLow, ptLow, pml4] at place ⊢
  clear huge pages cleared apart mapped table
  rcases place with rfl | rfl | rfl | ⟨rfl, rfl | rfl⟩
  · simp
  · by_cases first : j = 0 <;> simp [first]
  · simp
  · simp
  · simp

end

section
variable {addr first second third frame flags : Nat}

theorem physAddr_pte (inRam : frame < 2 ^ 40) (small : flags < 4096) :
    physAddr 4 [first, second, third, pte frame flags] addr = frame * 4096 + addr % 4096 := by
  refine (physAddr_page rfl).trans ?_
  change pte frame flags / 4096 % 2 ^ 40 * 4096 + _ = _
  rw [(pte_bits inRam small).2.2.2]

theorem physAddr_hugePte (inRam : frame < 2 ^ 31) (small : flags % 2 ^ 52 < 4096) :
    physAddr 4 [first, second, pte (frame * 0x200) flags] addr = frame * 2 ^ 21 + addr % 2 ^ 21 := by
  refine (physAddr_huge rfl).trans ?_
  change pte (frame * 0x200) flags / 2 ^ 21 % 2 ^ 31 * 2 ^ 21 + _ = _
  unfold pte
  omega

end

section
variable (m : Mem) (oldPml4 : Nat) {off : Nat}

/-- The lowest 1 GiB is mapped to itself. -/
theorem translate_lower {v : Nat} (bound : v < 2 ^ 30) :
    hwTranslate (init (clearTables m) oldPml4) pml4 v = some v := by
  have path : pagePath (v / 4096) = [0, 0, Fin.ofNat 512 (v / 2 ^ 21), Fin.ofNat 512 (v / 2 ^ 12)] := by
    simp only [pagePath, List.cons.injEq, and_true, Fin.ext_iff, Fin.val_ofNat, Fin.val_zero]
    omega
  have top : (init (clearTables m) oldPml4).entry pml4 0 = pte pdptLow flags :=
    init_lower_entry m oldPml4 (Or.inr (Or.inr (Or.inr ⟨rfl, Or.inl rfl⟩)))
  have pdpt : (init (clearTables m) oldPml4).entry pdptLow 0 = pte pdtLow flags :=
    init_lower_entry m oldPml4 (Or.inl rfl)
  have pdt (j : Fin 512) : (init (clearTables m) oldPml4).entry pdtLow j = lowerEntry pdtLow j :=
    init_lower_entry m oldPml4 (Or.inr (Or.inl rfl))
  unfold hwTranslate
  rw [path, hwWalk_link top (by decide) (by decide) (by decide), hwWalk_link pdpt (by decide) (by decide) (by decide)]
  by_cases first : Fin.ofNat 512 (v / 2 ^ 21) = 0
  · have page : (init (clearTables m) oldPml4).entry ptLow (Fin.ofNat 512 (v / 2 ^ 12)) =
        pte (Fin.ofNat 512 (v / 2 ^ 12)) flags := init_lower_entry m oldPml4 (Or.inr (Or.inr (Or.inl rfl)))
    have small : v / 2 ^ 21 % 512 = 0 := congrArg Fin.val first
    rw [first, hwWalk_link (pdt 0) (by decide) (by decide) (by decide),
      hwWalk_link page (by omega) (by decide) (by decide)]
    refine congrArg some ((physAddr_pte (by omega) (by decide)).trans ?_)
    rw [Fin.val_ofNat]
    omega
  · have leaf := (pdt _).trans (if_neg first)
    obtain ⟨present, _, huge, _⟩ := @pte_bits ((Fin.ofNat 512 (v / 2 ^ 21)).val * 0x200) hugeFlags (by omega) (by decide)
    rw [hwWalk_huge leaf present huge]
    refine congrArg some ((physAddr_hugePte (by omega) (by decide)).trans ?_)
    rw [Fin.val_ofNat]
    omega

/-- The walk to an address below `PML4[256]`, by its entry of `PDPT_HIGH`. -/
theorem translate_upper (i : Fin 512) (bound : off < 2 ^ 30) :
    hwTranslate (init (clearTables m) oldPml4) pml4 (kernelBase + i * 2 ^ 30 + off) =
      (hwWalk (init (clearTables m) oldPml4) pdptHigh [i, Fin.ofNat 512 (off / 2 ^ 21), Fin.ofNat 512 (off / 2 ^ 12)]).map
        fun entries => physAddr 4 (pte pdptHigh flags :: entries) (kernelBase + i * 2 ^ 30 + off) := by
  have top : (init (clearTables m) oldPml4).entry pml4 256 = pte pdptHigh flags :=
    init_lower_entry m oldPml4 (Or.inr (Or.inr (Or.inr ⟨rfl, Or.inr rfl⟩)))
  have path : pagePath ((kernelBase + i * 2 ^ 30 + off) / 4096) =
      [256, i, Fin.ofNat 512 (off / 2 ^ 21), Fin.ofNat 512 (off / 2 ^ 12)] := by
    unfold kernelBase
    simp only [pagePath, List.cons.injEq, and_true, Fin.ext_iff, Fin.val_ofNat, show (256 : Fin 512).val = 256 from rfl]
    omega
  unfold hwTranslate
  rw [path, hwWalk_link top (by decide) (by decide) (by decide), Option.map_map]
  rfl

section
variable {j k : Fin 512}

/-- The walk through the tables of the image and the initial programs. -/
theorem walk_image : hwWalk (init (clearTables m) oldPml4) pdtHigh [j, k] =
    if j.val < 3 then some [pte (0x10a + j) flags, pte ((j + 1) * 0x200 + k) flags]
    else if j.val < 19 then some [pte ((j + 1) * 0x200) initrdFlags] else none := by
  have pdt : (init (clearTables m) oldPml4).entry pdtHigh j = upperEntry pdtHigh j := init_upper oldPml4 (Or.inr (Or.inl rfl))
  split
  · rename_i small
    have upper : UpperTable (0x10a + j) := Or.inr (Or.inr ⟨by unfold pdptHproc; omega, by omega⟩)
    have page := (init_upper (m := m) oldPml4 upper).trans (upperEntry_kernel (k := k) small)
    rw [hwWalk_link (pdt.trans (if_pos small)) (by omega) (by decide) (by decide),
      hwWalk_link page (by omega) (by decide) (by decide)]
    rfl
  · rename_i large
    split
    · rename_i small
      obtain ⟨present, _, huge, _⟩ := @pte_bits ((j + 1) * 0x200) initrdFlags (by omega) (by decide)
      exact hwWalk_huge (pdt.trans ((if_neg large).trans (if_pos small))) present huge
    · rename_i above
      exact hwWalk_absent (pdt.trans ((if_neg large).trans (if_neg above)))

theorem walk_gs : hwWalk (init (clearTables m) oldPml4) pdtGs [j, k] =
    if j = 0 then some [pte 0x1800 gsFlags] else none := by
  have pdt : (init (clearTables m) oldPml4).entry pdtGs j = upperEntry pdtGs j :=
    init_upper oldPml4 (Or.inr (Or.inr (by decide)))
  split
  · rename_i first
    exact hwWalk_huge (pdt.trans (if_pos first)) (by decide) (by decide)
  · rename_i other
    exact hwWalk_absent (pdt.trans (if_neg other))

theorem walk_grw : hwWalk (init (clearTables m) oldPml4) pdtGrw [j, k] =
    if j = 0 then some [pte 0x1a00 gsFlags] else if j = 1 then some [pte 0x1c00 grwFlags] else none := by
  have pdt : (init (clearTables m) oldPml4).entry pdtGrw j = upperEntry pdtGrw j :=
    init_upper oldPml4 (Or.inr (Or.inr (by decide)))
  split
  · rename_i first
    exact hwWalk_huge (pdt.trans (if_pos first)) (by decide) (by decide)
  · rename_i other
    split
    · rename_i second
      exact hwWalk_huge (pdt.trans ((if_neg other).trans (if_pos second))) (by decide) (by decide)
    · rename_i above
      exact hwWalk_absent (pdt.trans ((if_neg other).trans (if_neg above)))

end

theorem offset_mod (i : Fin 512) (off : Nat) : (kernelBase + i * 2 ^ 30 + off) % 4096 = off % 4096 ∧
    (kernelBase + i * 2 ^ 30 + off) % 2 ^ 21 = off % 2 ^ 21 := by
  unfold kernelBase
  omega

theorem slot_eq (bound : off < 2 ^ 30) (j : Fin 512) : Fin.ofNat 512 (off / 2 ^ 21) = j ↔ off / 2 ^ 21 = j.val := by
  rw [Fin.ext_iff, Fin.val_ofNat, Nat.mod_eq_of_lt (by omega)]

/-- The image of the kernel and the initial programs. -/
theorem translate_image (bound : off < 2 ^ 30) :
    hwTranslate (init (clearTables m) oldPml4) pml4 (kernelBase + off) =
      if off < 38 * 2 ^ 20 then some (0x200000 + off) else none := by
  have entry : (init (clearTables m) oldPml4).entry pdptHigh 0 = pte pdtHigh flags := init_upper oldPml4 (Or.inl rfl)
  have walk := translate_upper m oldPml4 0 bound
  have address := offset_mod 0 off
  rw [Fin.val_zero, Nat.zero_mul, Nat.add_zero] at walk address
  rw [walk, hwWalk_link entry (by decide) (by decide) (by decide), walk_image, (slot_eq bound _).mp rfl |>.symm]
  by_cases first : off / 2 ^ 21 < 3
  · rw [if_pos first, if_pos (by omega)]
    refine congrArg some ((physAddr_pte (by omega) (by decide)).trans ?_)
    rw [Fin.val_ofNat, address.1]
    omega
  · by_cases second : off / 2 ^ 21 < 19
    · rw [if_neg first, if_pos second, if_pos (by omega)]
      refine congrArg some ((physAddr_hugePte (by omega) (by decide)).trans ?_)
      rw [address.2]
      omega
    · rw [if_neg first, if_neg second, if_neg (by omega)]
      rfl

/-- The interrupt stack. -/
theorem translate_gs (bound : off < 2 ^ 30) :
    hwTranslate (init (clearTables m) oldPml4) pml4 (kernelBase + 2 ^ 30 + off) =
      if off < 2 ^ 21 then some (0x1800000 + off) else none := by
  have entry : (init (clearTables m) oldPml4).entry pdptHigh 1 = pte pdtGs flags := init_upper oldPml4 (Or.inl rfl)
  have walk := translate_upper m oldPml4 1 bound
  have address := offset_mod 1 off
  rw [Fin.val_one, Nat.one_mul] at walk address
  rw [walk, hwWalk_link entry (by decide) (by decide) (by decide), walk_gs]
  simp only [slot_eq bound, Fin.val_zero]
  by_cases first : off < 2 ^ 21
  · rw [if_pos (by omega), if_pos first]
    refine congrArg some ((@physAddr_hugePte _ _ _ 12 gsFlags (by decide) (by decide)).trans ?_)
    rw [address.2]
    omega
  · rw [if_neg (by omega), if_neg first]
    rfl

/-- The global data, for the drivers and for all. -/
theorem translate_grw (bound : off < 2 ^ 30) :
    hwTranslate (init (clearTables m) oldPml4) pml4 (kernelBase + 2 ^ 31 + off) =
      if off < 2 ^ 22 then some (0x1a00000 + off) else none := by
  have entry : (init (clearTables m) oldPml4).entry pdptHigh 2 = pte pdtGrw flags := init_upper oldPml4 (Or.inl rfl)
  have walk := translate_upper m oldPml4 2 bound
  have address := offset_mod 2 off
  rw [show (2 : Fin 512).val * 2 ^ 30 = 2 ^ 31 from rfl] at walk address
  rw [walk, hwWalk_link entry (by decide) (by decide) (by decide), walk_grw]
  simp only [slot_eq bound, Fin.val_zero, Fin.val_one]
  by_cases first : off < 2 ^ 21
  · rw [if_pos (by omega), if_pos (by omega)]
    refine congrArg some ((@physAddr_hugePte _ _ _ 13 gsFlags (by decide) (by decide)).trans ?_)
    rw [address.2]
    omega
  · by_cases second : off < 2 ^ 22
    · rw [if_neg (by omega), if_pos (by omega), if_pos second]
      refine congrArg some ((@physAddr_hugePte _ _ _ 14 grwFlags (by decide) (by decide)).trans ?_)
      rw [address.2]
      omega
    · rw [if_neg (by omega), if_neg (by omega), if_neg second]
      rfl

theorem translate_rest (above : 3 * 2 ^ 30 ≤ off) (below : off < 2 ^ 39) :
    hwTranslate (init (clearTables m) oldPml4) pml4 (kernelBase + off) = none := by
  have slot : off / 2 ^ 30 < 512 := by omega
  have entry : (init (clearTables m) oldPml4).entry pdptHigh ⟨off / 2 ^ 30, slot⟩ = 0 := by
    refine (init_upper oldPml4 (Or.inl rfl)).trans ?_
    have apart (c : Fin 512) (small : c.val < 3) : (⟨off / 2 ^ 30, slot⟩ : Fin 512) ≠ c := by
      rw [ne_eq, Fin.ext_iff]
      dsimp only
      omega
    exact (if_neg (apart 0 (by decide))).trans ((if_neg (apart 1 (by decide))).trans (if_neg (apart 2 (by decide))))
  have walk := @translate_upper m oldPml4 (off % 2 ^ 30) ⟨off / 2 ^ 30, slot⟩ (by omega)
  rw [hwWalk_absent entry] at walk
  rw [show kernelBase + off = kernelBase + off / 2 ^ 30 * 2 ^ 30 + off % 2 ^ 30 by omega]
  exact walk

/-- No other address of the upper half is mapped. -/
theorem translate_unmapped (below : off < 2 ^ 39) (image : 38 * 2 ^ 20 ≤ off)
    (gs : ¬(2 ^ 30 ≤ off ∧ off < 2 ^ 30 + 2 ^ 21)) (grw : ¬(2 ^ 31 ≤ off ∧ off < 2 ^ 31 + 2 ^ 22)) :
    hwTranslate (init (clearTables m) oldPml4) pml4 (kernelBase + off) = none := by
  rcases Nat.lt_or_ge off (2 ^ 30) with first | above
  · rw [translate_image m oldPml4 first, if_neg (by omega)]
  · rcases Nat.lt_or_ge off (2 ^ 31) with second | above
    · obtain ⟨rest, rfl⟩ := Nat.exists_eq_add_of_le above
      rw [← Nat.add_assoc, translate_gs m oldPml4 (by omega), if_neg (by omega)]
    · rcases Nat.lt_or_ge off (3 * 2 ^ 30) with third | above
      · obtain ⟨rest, rfl⟩ := Nat.exists_eq_add_of_le above
        rw [← Nat.add_assoc, translate_grw m oldPml4 (by omega), if_neg (by omega)]
      · exact translate_rest m oldPml4 above below

theorem runningTables_init : runningTables (init (clearTables m) oldPml4) = List.range' 0x10a 27 := by
  have high (j : Fin 512) : (init (clearTables m) oldPml4).entry pdtHigh j = upperEntry pdtHigh j :=
    init_upper oldPml4 (Or.inr (Or.inl rfl))
  have process (j : Fin 512) : (init (clearTables m) oldPml4).entry pdtHproc j = upperEntry pdtHproc j :=
    init_upper oldPml4 (Or.inr (Or.inr (by decide)))
  unfold runningTables
  simp only [high, process]
  decide +kernel

/-- The kernel's page tables translate as they are meant to: the lowest 1 GiB to
itself, the upper half to the image with the initial programs, the interrupt
stack and the global data, and nothing else. No table is used twice. -/
theorem kernel_map :
    (∀ v, v < 2 ^ 30 → hwTranslate (init (clearTables m) oldPml4) pml4 v = some v) ∧
    (∀ off, off < 38 * 2 ^ 20 → hwTranslate (init (clearTables m) oldPml4) pml4 (kernelBase + off) = some (0x200000 + off)) ∧
    (∀ off, off < initprtLength →
      hwTranslate (init (clearTables m) oldPml4) pml4 (initprtBase + off) = some (0x800000 + off)) ∧
    (∀ off, off < 2 ^ 21 →
      hwTranslate (init (clearTables m) oldPml4) pml4 (0xffff800040000000 + off) = some (0x1800000 + off)) ∧
    (∀ off, off < 2 ^ 22 →
      hwTranslate (init (clearTables m) oldPml4) pml4 (0xffff800080000000 + off) = some (0x1a00000 + off)) ∧
    (∀ addr, kernelBase ≤ addr → addr < kernelBase + 2 ^ 39 → ¬addr < kernelBase + 38 * 2 ^ 20 →
      ¬(0xffff800040000000 ≤ addr ∧ addr < 0xffff800040000000 + 2 ^ 21) →
      ¬(0xffff800080000000 ≤ addr ∧ addr < 0xffff800080000000 + 2 ^ 22) →
      hwTranslate (init (clearTables m) oldPml4) pml4 addr = none) ∧
    (fixedTables ++ runningTables (init (clearTables m) oldPml4)).Nodup := by
  refine ⟨fun v bound => translate_lower m oldPml4 bound, fun off bound => ?_, fun off bound => ?_, fun off bound => ?_,
    fun off bound => ?_, fun addr lower upper image gs grw => ?_, ?_⟩
  · rw [translate_image m oldPml4 (by omega), if_pos bound]
  · have inside : 0x600000 + off < 38 * 2 ^ 20 := by
      unfold initprtLength at bound
      omega
    rw [show initprtBase + off = kernelBase + (0x600000 + off) by unfold initprtBase kernelBase; omega,
      translate_image m oldPml4 (by omega), if_pos inside]
    exact congrArg some (by omega)
  · exact (translate_gs m oldPml4 (by omega)).trans (if_pos bound)
  · exact (translate_grw m oldPml4 (by omega)).trans (if_pos bound)
  · obtain ⟨off, rfl⟩ := Nat.exists_eq_add_of_le lower
    have base : kernelBase = 0xffff800000000000 := rfl
    exact translate_unmapped m oldPml4 (by omega) (by omega) (by omega) (by omega)
  · rw [runningTables_init]
    decide

end

end Paging

end ProkaKernel
