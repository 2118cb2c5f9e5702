import ProkaKernel.Forest
import ProkaKernel.PhysMem
import ProkaKernel.FrameAlloc

namespace ProkaKernel

namespace PageFlags

/-- Bits of a page-table entry (`PageTableFlags`). -/
def present : Nat := 0x1
def writable : Nat := 0x2
def userAccessible : Nat := 0x4
def writeThrough : Nat := 0x8
def noCache : Nat := 0x10
def hugePage : Nat := 0x80
def globalPage : Nat := 0x100
def noExecute : Nat := 2 ^ 63

/-- The flags of a present entry that maps one frame: no huge page, and no bit
in the place of the address. -/
def Ok (flags : Nat) : Prop :=
  flags % 2 = 1 ∧ flags / 128 % 2 = 0 ∧ flags / 4096 % 2 ^ 40 = 0 ∧ flags < 2 ^ 64

instance (flags : Nat) : Decidable (Ok flags) := inferInstanceAs (Decidable (_ ∧ _))

end PageFlags

/-- A page-table entry: the frame's address and the flags. -/
def pte (frame flags : Nat) : Nat := frame * 4096 + flags

/-- `PageTableEntry::frame`: the frame of an entry that is present and not huge. -/
def pteFrame (e : Nat) : Option Nat :=
  if e % 2 = 1 ∧ e / 128 % 2 = 0 then some (e / 4096 % 2 ^ 40) else none

theorem pteFrame_zero : pteFrame 0 = none := rfl

theorem pteFrame_pte {frame flags : Nat} (bound : frame < 2 ^ 40) (ok : PageFlags.Ok flags) :
    pteFrame (pte frame flags) = some frame := by
  obtain ⟨present, single, address, _⟩ := ok
  have frameBits : pte frame flags / 4096 % 2 ^ 40 = frame := by
    unfold pte
    omega
  rw [pteFrame, if_pos (by unfold pte; omega), frameBits]

theorem pte_lt {frame flags : Nat} (bound : frame < 2 ^ 40) (ok : PageFlags.Ok flags) :
    pte frame flags < 2 ^ 64 := by
  obtain ⟨_, _, address, top⟩ := ok
  unfold pte
  omega

/-- The indices of a 4 KiB page at the four levels, level 4 first. -/
def pagePath (page : Nat) : List (Fin 512) :=
  [Fin.ofNat 512 (page / 512 ^ 3), Fin.ofNat 512 (page / 512 ^ 2), Fin.ofNat 512 (page / 512), Fin.ofNat 512 page]

theorem pagePath_inj {page other : Nat} (bound : page < 2 ^ 36) (bound' : other < 2 ^ 36)
    (same : pagePath page = pagePath other) : page = other := by
  simp only [pagePath, List.cons.injEq, and_true, Fin.ext_iff, Fin.val_ofNat] at same
  omega

/-- Places in the lower half of an address space: tables have up to three
indices, mapped frames four. -/
def LowPath (p : List (Fin 512)) : Prop := p.length ≤ 4 ∧ ∀ i ∈ p.head?, i.val < 256

theorem lowPath_closed (p q : List (Fin 512)) (low : LowPath (p ++ q)) : LowPath p := by
  refine ⟨?_, fun i first => low.2 i ?_⟩
  · have length := low.1
    rw [List.length_append] at length
    omega
  · cases p with
    | nil => cases first
    | cons j p => exact first

theorem pagePath_low {page : Nat} (bound : page < 2 ^ 35) : LowPath (pagePath page) := by
  refine ⟨Nat.le_refl _, fun i first => ?_⟩
  cases Option.some.inj first
  rw [Fin.val_ofNat]
  omega

/-- The page-table walk of the processor. -/
abbrev tableWalk (m : Mem) (root : Nat) (p : List (Fin 512)) : Option Nat := Forest.walk pteFrame m.entry root p

/-- The frame that a page of the address space below `root` is mapped to. -/
def translate (m : Mem) (root page : Nat) : Option Nat := tableWalk m root (pagePath page)

namespace FrameAlloc

/-- The frame was handed out by the allocator, or is unusable memory. -/
def Taken (a : FrameAlloc) (f : Nat) : Prop := Used a.bitmap f ∧ a.reserved + a.selfUsedPage ≤ f

/-- The protected region is marked, and the search starts above it. -/
structure Guarded (a : FrameAlloc) : Prop where
  marked : ∀ q, q < a.reserved + a.selfUsedPage → Used a.bitmap q
  pos : a.reserved + a.selfUsedPage ≤ a.pos

/-- What an allocation does, as far as the kernel is concerned. -/
structure Hands (a a' : FrameAlloc) (s n : Nat) : Prop where
  fresh : ∀ q, s ≤ q → q < s + n → ¬Used a.bitmap q
  used : ∀ q, Used a'.bitmap q ↔ Used a.bitmap q ∨ (s ≤ q ∧ q < s + n)
  above : 1 ≤ n → a.reserved + a.selfUsedPage ≤ s
  reserved : a'.reserved = a.reserved
  selfUsedPage : a'.selfUsedPage = a.selfUsedPage
  guarded : Guarded a'

theorem Guarded.hands {a a' : FrameAlloc} {n s : Nat} (guarded : Guarded a)
    (run : a.allocateContiguous n = some (s, a')) : Hands a a' s n := by
  obtain ⟨searched, _, free, rfl⟩ := allocateContiguous_some run
  refine ⟨free, fun q => setRun_one_used .., fun positive => ?_, rfl, rfl, fun q below => ?_, ?_⟩
  · by_contra below
    have marked := guarded.marked s (by omega)
    exact free s (Nat.le_refl s) (by omega) marked
  · exact (setRun_one_used ..).mpr (Or.inl (guarded.marked q below))
  · exact Nat.le_trans guarded.pos (Nat.le_add_right ..)

theorem Hands.taken {a a' : FrameAlloc} {n s : Nat} (hands : Hands a a' s n) {f : Nat} (old : a.Taken f) :
    a'.Taken f :=
  ⟨(hands.used f).mpr (Or.inl old.1), by rw [hands.reserved, hands.selfUsedPage]; exact old.2⟩

theorem Hands.taken_new {a a' : FrameAlloc} {n s f : Nat} (hands : Hands a a' s n) (lower : s ≤ f)
    (upper : f < s + n) : a'.Taken f := by
  refine ⟨(hands.used f).mpr (Or.inr ⟨lower, upper⟩), ?_⟩
  rw [hands.reserved, hands.selfUsedPage]
  exact Nat.le_trans (hands.above (by omega)) lower

theorem Hands.not_taken {a a' : FrameAlloc} {n s f : Nat} (hands : Hands a a' s n) (lower : s ≤ f)
    (upper : f < s + n) : ¬a.Taken f :=
  fun taken => hands.fresh f lower upper taken.1

theorem Guarded.deallocate {a : FrameAlloc} (guarded : Guarded a) (f n : Nat) :
    Guarded (a.deallocateContiguous f n) := by
  unfold deallocateContiguous
  split
  · exact guarded
  · refine ⟨fun q below => (setRun_zero_used ..).mpr ⟨guarded.marked q below, Or.inl ?_⟩, guarded.pos⟩
    change q < a.reserved + a.selfUsedPage at below
    omega

/-- Giving one frame back leaves all others as they were. -/
theorem Taken.deallocate {a : FrameAlloc} {f g : Nat} (taken : a.Taken g) (apart : g ≠ f) :
    (a.deallocateContiguous f 1).Taken g := by
  unfold deallocateContiguous
  split
  · exact taken
  · exact ⟨(setRun_zero_used ..).mpr ⟨taken.1, Or.inl (by omega)⟩, taken.2⟩

theorem deallocate_low {a : FrameAlloc} {f : Nat} (low : f < a.reserved) : a.deallocateContiguous f 1 = a :=
  if_pos (by omega)

theorem deallocate_reserved (a : FrameAlloc) (f : Nat) : (a.deallocateContiguous f 1).reserved = a.reserved := by
  unfold deallocateContiguous
  split <;> rfl

end FrameAlloc

/-- The address spaces below the roots `R`, with the frames that were taken
from the allocator and are not mapped yet. -/
abbrev Spaces (m : Mem) (a : FrameAlloc) (R pend : Set Nat) : Prop :=
  Forest.Owned pteFrame LowPath m.entry R a.Taken pend

/-- The level-3 tables of the upper half (`PDPT_HIGH_ADDR`, `PDPT_HPROC_ADDR`). -/
def pdptHigh : Nat := 0x101
def pdptHproc : Nat := 0x106

def Shared (s : Nat) : Prop := s = pdptHigh ∨ s = pdptHproc

/-- The upper halves of all address spaces share the kernel's tables, which
lie below the bound. -/
structure Upper (m : Mem) (bound : Nat) (R : Set Nat) : Prop where
  below : ∀ s, Shared s → ∀ p f, p.length ≤ 2 → tableWalk m s p = some f → f < bound
  linked : ∀ r ∈ R, ∀ i : Fin 512, 256 ≤ i.val → ∀ f, pteFrame (m.entry r i) = some f → Shared f

/-- An edit outside the kernel's memory and the upper entries of the roots. -/
theorem Upper.congr {m m' : Mem} {bound : Nat} {R : Set Nat} (upper : Upper m bound R)
    (low : ∀ t, t < bound → ∀ j, pteFrame (m'.entry t j) = pteFrame (m.entry t j))
    (roots : ∀ r ∈ R, ∀ i : Fin 512, 256 ≤ i.val → pteFrame (m'.entry r i) = pteFrame (m.entry r i)) :
    Upper m' bound R := by
  refine ⟨fun s shared p f length reached => ?_, fun r member i high f entry => ?_⟩
  · refine upper.below s shared p f length (Eq.trans (Eq.symm ?_) reached)
    refine Forest.walk_congr fun q j rest t split here => low t ?_ j
    refine upper.below s shared q t ?_ here
    rw [split, List.length_append, List.length_cons] at length
    omega
  · exact upper.linked r member i high f (roots r member i high ▸ entry)

theorem Upper.clear {m : Mem} {bound : Nat} {R : Set Nat} (upper : Upper m bound R) (t : Nat) (i : Fin 512) :
    Upper (m.setEntry t i 0) bound R := by
  have cleared (u : Nat) (j : Fin 512) : pteFrame ((m.setEntry t i 0).entry u j) = pteFrame (m.entry u j) ∨
      pteFrame ((m.setEntry t i 0).entry u j) = none := by
    rcases m.entry_clear t i u j with same | zero
    · exact Or.inl (by rw [same])
    · exact Or.inr (by rw [zero, pteFrame_zero])
  refine ⟨fun s shared p f length reached => ?_, fun r member j high f entry => ?_⟩
  · exact upper.below s shared p f length (Forest.walk_of_cleared cleared reached)
  · rcases cleared r j with same | none
    · exact upper.linked r member j high f (same ▸ entry)
    · rw [none] at entry
      cases entry

/-- What the kernel keeps true of physical memory: every frame handed out has
at most one place in the address spaces below `R`, the frames `pend` have
none, and the kernel's own memory is out of reach. -/
structure Owns (m : Mem) (a : FrameAlloc) (R pend : Set Nat) : Prop where
  spaces : Spaces m a R pend
  guarded : a.Guarded
  upper : Upper m a.reserved R

section
variable {m m' : Mem} {a : FrameAlloc} {R R' pend pend' : Set Nat}

theorem Owns.restrict (owns : Owns m a R pend) (roots : R' ⊆ R) (fewer : pend' ⊆ pend) : Owns m a R' pend' :=
  ⟨owns.spaces.restrict roots fewer, owns.guarded, owns.upper.below, fun r member => owns.upper.linked r (roots member)⟩

theorem Owns.taken_root (owns : Owns m a R pend) {r : Nat} (member : r ∈ R) : a.Taken r :=
  owns.spaces.placed r ⟨r, [], member, ⟨Nat.zero_le _, fun _ none => nomatch none⟩, rfl⟩

theorem Owns.root_path (owns : Owns m a R pend) {root r : Nat} (member : root ∈ R) (member' : r ∈ R)
    {p : List (Fin 512)} (low : LowPath p) (reached : tableWalk m root p = some r) : root = r ∧ p = [] :=
  owns.spaces.exclusive member member' low ⟨Nat.zero_le _, fun _ none => nomatch none⟩ reached rfl

/-- An edit of one entry in the lower half, and of frames without a place,
does not touch the upper half. -/
theorem Owns.upper_edit (owns : Owns m a R pend) {root t : Nat} {p : List (Fin 512)} {i : Fin 512}
    (member : root ∈ R) (low : LowPath (p ++ [i])) (reached : tableWalk m root p = some t)
    (others : ∀ u j, (u < a.reserved ∨ u ∈ R) → ¬(u = t ∧ j = i) → pteFrame (m'.entry u j) = pteFrame (m.entry u j)) :
    Upper m' a.reserved R := by
  have lowP : LowPath p := lowPath_closed p [i] low
  have taken : a.Taken t := owns.spaces.placed t ⟨root, p, member, lowP, reached⟩
  refine owns.upper.congr (fun u below j => others u j (Or.inl below) ?_)
    fun r member' j high => others r j (Or.inr member') ?_
  · rintro ⟨rfl, _⟩
    exact absurd taken.2 (by omega)
  · rintro ⟨rfl, rfl⟩
    obtain ⟨_, rfl⟩ := owns.root_path member member' lowP reached
    exact absurd (low.2 j rfl) (by omega)

end

end ProkaKernel
