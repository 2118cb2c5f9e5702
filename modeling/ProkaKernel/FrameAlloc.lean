import ProkaKernel.Bitmap

namespace ProkaKernel

/-- The size of one physical page in bytes (`PAGE_SIZE`). -/
def pageSize : Nat := 4096

/-- Kinds of memory in the boot map; the kernel only tells free RAM apart. -/
inductive MemoryType
  | freeRAM
  | other (tag : Nat)
  deriving DecidableEq

structure MemoryEntry where
  baseAddr : UInt64
  length : UInt64
  memType : MemoryType
  deriving DecidableEq

abbrev MemoryMap := List MemoryEntry

def divCeil (a b : Nat) : Nat := if a % b = 0 then a / b else a / b + 1

theorem divCeil_page (n : Nat) : divCeil n pageSize = (n + 4095) / 4096 := by
  unfold divCeil pageSize
  split <;> omega

/-- The bitmap allocator of physical frames. The source keeps the bitmap at a
fixed physical address; here it is part of the value. -/
structure FrameAlloc where
  bitmap : List UInt8 := []
  maxPage : Nat := 0
  reserved : Nat := 0
  selfUsedPage : Nat := 0
  pos : Nat := 0
  deriving DecidableEq

namespace FrameAlloc

def setBit (bitmap : List UInt8) (pfn : Nat) (value : UInt8) : List UInt8 :=
  if bitmap.length ≤ pfn / 8 then bitmap
  else if value = 0 then Bitmap.clear bitmap pfn
  else if value = 1 then Bitmap.mark bitmap pfn
  else bitmap

def getBit (bitmap : List UInt8) (pfn : Nat) : UInt8 :=
  if bitmap.length ≤ pfn / 8 then 1
  else (bitmap.getD (pfn / 8) 0 >>> UInt8.ofNat (pfn % 8)) &&& 1

/-- The loops that set `n` bits from `start` on. -/
def setRun (bitmap : List UInt8) (start n : Nat) (value : UInt8) : List UInt8 :=
  match n with
  | 0 => bitmap
  | n + 1 => setRun (setBit bitmap start value) (start + 1) n value

/-- The largest end of a free entry. The sum of two `u64` wraps around. -/
def maxPhysAddr (map : MemoryMap) : Option Nat :=
  ((map.filter fun d => d.memType = .freeRAM).map fun d => (d.baseAddr + d.length).toNat).max?

def markUnavailable (bitmap : List UInt8) (desc : MemoryEntry) : List UInt8 :=
  if desc.memType ≠ .freeRAM then
    setRun bitmap (divCeil desc.baseAddr.toNat pageSize) (divCeil desc.length.toNat pageSize) 1
  else bitmap

/-- `None` is the panic of `unwrap` on a map without free RAM. -/
def init (map : MemoryMap) (reservedPages : Nat) : Option FrameAlloc :=
  (maxPhysAddr map).map fun maxPhys =>
    let maxPage := divCeil maxPhys pageSize
    let bitmapBytes := divCeil maxPage 8
    let selfUsedPage := divCeil bitmapBytes pageSize
    let described := map.foldl markUnavailable (List.replicate bitmapBytes 0)
    { bitmap := setRun (setRun described 0 reservedPages 1) reservedPages selfUsedPage 1
      maxPage := maxPage
      reserved := reservedPages
      selfUsedPage := selfUsedPage
      pos := reservedPages + selfUsedPage }

/-- The inner loop of the scanner: are the `n` pages from `cur` on free? -/
def runFree (bitmap : List UInt8) (cur n : Nat) : Bool :=
  match n with
  | 0 => true
  | n + 1 => if getBit bitmap cur = 1 then false else runFree bitmap (cur + 1) n

def scanFrom (a : FrameAlloc) (n : Nat) : Nat → Nat → Option Nat
  | 0, _ => none
  | fuel + 1, cur =>
    if cur + n ≤ a.maxPage then
      if runFree a.bitmap cur n then some cur else scanFrom a n fuel (cur + 1)
    else none

/-- The scanner of `allocate_contiguous`; it leaves its loop at the latest
when `cur` passes `max_page`. -/
def scan (a : FrameAlloc) (n s : Nat) : Option Nat := scanFrom a n (a.maxPage + 1 - s) s

def allocateContiguous (a : FrameAlloc) (n : Nat) : Option (Nat × FrameAlloc) :=
  ((a.scan n a.pos).or (a.scan n a.reserved)).map fun start =>
    (start, { a with bitmap := setRun a.bitmap start n 1, pos := a.pos + n })

def deallocateContiguous (a : FrameAlloc) (pfn n : Nat) : FrameAlloc :=
  if pfn ≤ a.reserved + a.selfUsedPage then a
  else { a with bitmap := setRun a.bitmap pfn n 0 }

/-- The frame counts as used: its bit is set, or it has none. -/
def Used (bitmap : List UInt8) (pfn : Nat) : Prop := getBit bitmap pfn = 1

instance (bitmap : List UInt8) (pfn : Nat) : Decidable (Used bitmap pfn) :=
  inferInstanceAs (Decidable (getBit bitmap pfn = 1))

theorem used_iff (bitmap : List UInt8) (pfn : Nat) :
    Used bitmap pfn ↔ bitmap.length ≤ pfn / 8 ∨ Bitmap.test bitmap pfn = true := by
  unfold Used getBit
  split
  · rename_i outside
    exact iff_of_true rfl (Or.inl outside)
  · rename_i inside
    rw [Bitmap.shiftRight_and_one (Nat.mod_lt pfn (by decide)), or_iff_right inside, Bitmap.test]
    split
    · rename_i set
      exact iff_of_true rfl set
    · rename_i free
      exact iff_of_false (by decide) free

@[simp] theorem setBit_length (bitmap : List UInt8) (pfn : Nat) (value : UInt8) :
    (setBit bitmap pfn value).length = bitmap.length := by
  unfold setBit
  repeat' split
  all_goals simp

theorem setBit_one_used (bitmap : List UInt8) (pfn q : Nat) :
    Used (setBit bitmap pfn 1) q ↔ Used bitmap q ∨ q = pfn := by
  rw [used_iff, used_iff, setBit_length]
  unfold setBit
  split
  · rename_i outside
    constructor
    · exact Or.inl
    · rintro (old | rfl)
      · exact old
      · exact Or.inl outside
  · rename_i inside
    rw [if_neg (by decide), if_pos rfl, Bitmap.test_mark]
    simp only [Bool.or_eq_true, decide_eq_true_eq, Nat.lt_of_not_le inside, and_true, or_assoc,
      eq_comm (a := pfn)]

theorem setBit_zero_used (bitmap : List UInt8) (pfn q : Nat) :
    Used (setBit bitmap pfn 0) q ↔ Used bitmap q ∧ (q ≠ pfn ∨ bitmap.length ≤ q / 8) := by
  rw [used_iff, used_iff, setBit_length]
  unfold setBit
  split
  · rename_i outside
    constructor
    · refine fun old => ⟨old, ?_⟩
      by_cases same : q = pfn
      · exact Or.inr (same ▸ outside)
      · exact Or.inl same
    · exact And.left
  · rw [if_pos rfl, Bitmap.test_clear]
    simp only [Bool.and_eq_true, decide_eq_true_eq, ne_comm (a := pfn)]
    by_cases outside : bitmap.length ≤ q / 8 <;> simp [outside]

@[simp] theorem setRun_length (bitmap : List UInt8) (start n : Nat) (value : UInt8) :
    (setRun bitmap start n value).length = bitmap.length := by
  induction n generalizing bitmap start with
  | zero => rfl
  | succ n ih => rw [setRun, ih, setBit_length]

theorem setRun_one_used (bitmap : List UInt8) (start n q : Nat) :
    Used (setRun bitmap start n 1) q ↔ Used bitmap q ∨ (start ≤ q ∧ q < start + n) := by
  induction n generalizing bitmap start with
  | zero =>
    rw [setRun, or_iff_left]
    omega
  | succ n ih =>
    rw [setRun, ih, setBit_one_used, or_assoc]
    exact or_congr_right (by omega)

theorem setRun_zero_used (bitmap : List UInt8) (start n q : Nat) :
    Used (setRun bitmap start n 0) q ↔
      Used bitmap q ∧ (¬(start ≤ q ∧ q < start + n) ∨ bitmap.length ≤ q / 8) := by
  induction n generalizing bitmap start with
  | zero =>
    rw [setRun, and_iff_left]
    exact Or.inl (by omega)
  | succ n ih =>
    rw [setRun, ih, setBit_zero_used, setBit_length, and_assoc]
    exact and_congr_right fun _ => (by omega)

theorem runFree_iff (bitmap : List UInt8) (cur n : Nat) :
    runFree bitmap cur n = true ↔ ∀ i, cur ≤ i → i < cur + n → ¬Used bitmap i := by
  induction n generalizing cur with
  | zero => exact iff_of_true rfl fun i lower upper => absurd upper (by omega)
  | succ n ih =>
    unfold runFree
    split
    · rename_i used
      refine iff_of_false (by decide) fun free => free cur (Nat.le_refl _) (by omega) used
    · rename_i free
      rw [ih]
      constructor
      · intro rest i lower upper
        by_cases first : i = cur
        · exact first ▸ free
        · exact rest i (by omega) (by omega)
      · exact fun all i lower upper => all i (by omega) (by omega)

theorem scanFrom_some {a : FrameAlloc} {n fuel cur start : Nat} (found : scanFrom a n fuel cur = some start) :
    cur ≤ start ∧ start + n ≤ a.maxPage ∧ runFree a.bitmap start n = true := by
  induction fuel generalizing cur with
  | zero => cases found
  | succ fuel ih =>
    unfold scanFrom at found
    split at found
    · rename_i bound
      split at found
      · rename_i free
        cases found
        exact ⟨Nat.le_refl _, bound, free⟩
      · obtain ⟨lower, rest⟩ := ih found
        exact ⟨by omega, rest⟩
    · cases found

theorem scanFrom_none {a : FrameAlloc} {n fuel cur : Nat} (missing : scanFrom a n fuel cur = none)
    (start : Nat) (lower : cur ≤ start) (fuelled : start < cur + fuel) (bound : start + n ≤ a.maxPage) :
    runFree a.bitmap start n = false := by
  induction fuel generalizing cur with
  | zero => omega
  | succ fuel ih =>
    unfold scanFrom at missing
    rw [if_pos (by omega)] at missing
    split at missing
    · cases missing
    · rename_i taken
      by_cases here : cur = start
      · exact here ▸ Bool.not_eq_true _ ▸ taken
      · exact ih missing (by omega) (by omega)

theorem scan_none {a : FrameAlloc} {n s : Nat} (missing : a.scan n s = none) (start : Nat) (lower : s ≤ start)
    (bound : start + n ≤ a.maxPage) : runFree a.bitmap start n = false :=
  scanFrom_none missing start lower (by omega) bound

theorem scan_here {a : FrameAlloc} {n s : Nat} (bound : s + n ≤ a.maxPage) (free : runFree a.bitmap s n = true) :
    a.scan n s = some s := by
  obtain ⟨fuel, more⟩ : ∃ fuel, a.maxPage + 1 - s = fuel + 1 := ⟨a.maxPage - s, by omega⟩
  rw [scan, more, scanFrom, if_pos bound, if_pos free]

theorem deallocate_zero (a : FrameAlloc) (f : Nat) : a.deallocateContiguous f 0 = a := by
  unfold deallocateContiguous
  split <;> rfl

/-- Where a run comes from: the scan from `pos` on, or else that from `reserved`
on. -/
theorem allocateContiguous_scan {a a' : FrameAlloc} {n start : Nat} (run : a.allocateContiguous n = some (start, a')) :
    (a.scan n a.pos = some start ∨ a.scan n a.pos = none ∧ a.scan n a.reserved = some start) ∧
      a' = { a with bitmap := setRun a.bitmap start n 1, pos := a.pos + n } := by
  obtain ⟨found, scanned, same⟩ := Option.map_eq_some_iff.mp run
  cases same
  refine ⟨?_, rfl⟩
  cases first : a.scan n a.pos with
  | some here =>
    rw [first, Option.some_or] at scanned
    exact Or.inl scanned
  | none =>
    rw [first, Option.none_or] at scanned
    exact Or.inr ⟨rfl, scanned⟩

/-- A successful allocation: the run was free, lies below `max_page` and not
below the start of one of the two scans; only its bits and `pos` change. -/
theorem allocateContiguous_some {a a' : FrameAlloc} {n start : Nat}
    (run : a.allocateContiguous n = some (start, a')) :
    (a.pos ≤ start ∨ a.reserved ≤ start) ∧ start + n ≤ a.maxPage ∧
      (∀ i, start ≤ i → i < start + n → ¬Used a.bitmap i) ∧
      a' = { a with bitmap := setRun a.bitmap start n 1, pos := a.pos + n } := by
  obtain ⟨first | ⟨_, second⟩, same⟩ := allocateContiguous_scan run
  · obtain ⟨lower, bound, free⟩ := scanFrom_some first
    exact ⟨Or.inl lower, bound, (runFree_iff _ _ _).mp free, same⟩
  · obtain ⟨lower, bound, free⟩ := scanFrom_some second
    exact ⟨Or.inr lower, bound, (runFree_iff _ _ _).mp free, same⟩

/-- A refused allocation: no run of that length is free above `reserved`. -/
theorem allocateContiguous_none {a : FrameAlloc} {n start : Nat} (refused : a.allocateContiguous n = none)
    (lower : a.reserved ≤ start) (bound : start + n ≤ a.maxPage) :
    ∃ i, start ≤ i ∧ i < start + n ∧ Used a.bitmap i := by
  have both := Option.or_eq_none_iff.mp (Option.map_eq_none_iff.mp refused)
  have taken := scan_none both.2 start lower bound
  by_contra free
  have all : runFree a.bitmap start n = true :=
    (runFree_iff _ _ _).mpr fun i lower upper used => free ⟨i, lower, upper, used⟩
  rw [all] at taken
  cases taken

/-- A run of that length is free between `reserved` and `max_page`. -/
def FreeRun (a : FrameAlloc) (n : Nat) : Prop :=
  ∃ start, a.reserved ≤ start ∧ start + n ≤ a.maxPage ∧ ∀ i, start ≤ i → i < start + n → ¬Used a.bitmap i

theorem allocateContiguous_none_iff {a : FrameAlloc} (n : Nat) (pos : a.reserved ≤ a.pos) :
    a.allocateContiguous n = none ↔ ¬a.FreeRun n := by
  constructor
  · rintro refused ⟨start, lower, bound, free⟩
    obtain ⟨i, above, below, used⟩ := allocateContiguous_none refused lower bound
    exact free i above below used
  · intro full
    refine Option.eq_none_iff_forall_ne_some.mpr fun out run => full ?_
    obtain ⟨searched, bound, free, _⟩ := allocateContiguous_some run
    exact ⟨out.1, searched.elim (Nat.le_trans pos) id, bound, free⟩

/-- An allocation that fits at the search position is made there. -/
theorem allocateContiguous_pos {a : FrameAlloc} {n : Nat} (bound : a.pos + n ≤ a.maxPage)
    (free : ∀ i, a.pos ≤ i → i < a.pos + n → ¬Used a.bitmap i) :
    a.allocateContiguous n =
      some (a.pos, { a with bitmap := setRun a.bitmap a.pos n 1, pos := a.pos + n }) := by
  rw [allocateContiguous, scan_here bound ((runFree_iff _ _ _).mpr free)]
  rfl

end FrameAlloc
end ProkaKernel
