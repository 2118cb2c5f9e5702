import ProkaKernel.DeviceMemory
import ProkaKernel.KernelMap

namespace ProkaKernel

/-- The entry at which the processor ends its way to a page: one of the last
level, or one for a huge page. -/
structure Leaf (m : Mem) (root page : Nat) (q : List (Fin 512)) (i : Fin 512) (rest : List (Fin 512)) (u : Nat) : Prop where
  path : pagePath page = q ++ i :: rest
  reached : tableWalk m root q = some u
  present : m.entry u i % 2 = 1
  last : rest = [] ∨ m.entry u i / 128 % 2 = 1 ∧ rest.length ≤ 2

/-- The address that an entry after `passed` tables stands for. -/
def leafAddr (passed e addr : Nat) : Nat :=
  let size := 4096 * 512 ^ (3 - passed)
  e % 2 ^ 52 / size * size + addr % size

/-- The indices of a slot of 2 MiB: those on the way to its table, and its own. -/
def slotTable (n : Nat) : List (Fin 512) := [Fin.ofNat 512 (n / 512 ^ 2), Fin.ofNat 512 (n / 512)]

def slotIndex (n : Nat) : Fin 512 := Fin.ofNat 512 n

/-- Nothing is in the slot, neither a page of 2 MiB nor a table. -/
def FreeSlot (m : Mem) (root n : Nat) : Prop := ∀ t, tableWalk m root (slotTable n) = some t → m.entry t (slotIndex n) = 0

section
variable {m m' : Mem} {root page n x y t : Nat} {p q rest : List (Fin 512)} {i : Fin 512} {u : Nat}

/-- The processor passes the tables that a walk passes. -/
theorem hwWalk_append {path : List (Fin 512)} (nonempty : path ≠ []) (reached : tableWalk m root p = some t) :
    ∃ passed, passed.length = p.length ∧ hwWalk m root (p ++ path) = (hwWalk m t path).map (passed ++ ·) := by
  induction p generalizing root with
  | nil =>
    cases reached
    exact ⟨[], rfl, by simp⟩
  | cons i p ih =>
    obtain ⟨s, next, below⟩ := Option.bind_eq_some_iff.mp reached
    obtain ⟨passed, length, run⟩ := ih below
    unfold pteFrame at next
    split at next
    · rename_i table
      have more : p ++ path ≠ [] := fun none => nonempty (List.append_eq_nil_iff.mp none).2
      refine ⟨m.entry root i :: passed, congrArg Nat.succ length, ?_⟩
      rw [List.cons_append, hwWalk, if_neg (by omega), if_neg (fun both => by omega), Option.some.inj next, run,
        Option.map_map]
      rfl
    · cases next

theorem Leaf.hwWalk (leaf : Leaf m root page q i rest u) :
    ∃ passed, passed.length = q.length ∧ hwWalk m root (pagePath page) = some (passed ++ [m.entry u i]) := by
  obtain ⟨passed, length, run⟩ := hwWalk_append (List.cons_ne_nil i rest) leaf.reached
  refine ⟨passed, length, ?_⟩
  have present := leaf.present
  rw [leaf.path, run, ProkaKernel.hwWalk, if_neg (by omega)]
  rcases leaf.last with rfl | ⟨huge, short⟩
  · rw [if_neg (fun both => both.2 rfl)]
    rfl
  · by_cases last : rest = []
    · rw [if_neg (fun both => both.2 last), last]
      rfl
    · rw [if_pos ⟨huge, last⟩, if_pos short]
      rfl

/-- An address is translated by the leaf on the way to its page. -/
theorem hwTranslate_some_iff : hwTranslate m root x = some y ↔
    ∃ q i rest u, Leaf m root (x / 4096) q i rest u ∧ y = leafAddr q.length (m.entry u i) x := by
  rw [hwTranslate]
  constructor
  · intro found
    obtain ⟨entries, run, rfl⟩ := Option.map_eq_some_iff.mp found
    have nonempty : pagePath (x / 4096) ≠ [] := List.cons_ne_nil _ _
    obtain ⟨q, i, rest, u, path, reached, leaf, length, present, last⟩ :=
      hwWalk_leaf nonempty (show tableWalk m root [] = some root from rfl) run
    refine ⟨q, i, rest, u, ⟨path, reached, present, ?_⟩, ?_⟩
    · rcases last with none | huge
      · exact Or.inl none
      · refine or_iff_not_imp_left.mpr fun more => ⟨huge, ?_⟩
        by_contra long
        have levels : 4 = (q ++ i :: rest).length := congrArg List.length path
        rw [List.length_append, List.length_cons] at levels
        obtain rfl : q = [] := List.length_eq_zero_iff.mp (by omega)
        cases reached
        rw [path, List.nil_append, hwWalk, if_neg (by omega), if_pos ⟨huge, more⟩, if_neg long] at run
        cases run
    · unfold physAddr leafAddr
      rw [leaf, length, show 4 - (q.length + 1) = 3 - q.length by omega]
  · rintro ⟨q, i, rest, u, leaf, rfl⟩
    obtain ⟨passed, length, run⟩ := leaf.hwWalk
    rw [run, Option.map_some]
    unfold physAddr leafAddr
    rw [List.getLastD_concat, List.length_append, List.length_singleton, length,
      show 4 - (q.length + 1) = 3 - q.length by omega]

theorem Leaf.length (leaf : Leaf m root page q i rest u) : q.length + rest.length = 3 := by
  have length : 4 = (q ++ i :: rest).length := congrArg List.length leaf.path
  rw [List.length_append, List.length_cons] at length
  omega

theorem Leaf.low (leaf : Leaf m root page q i rest u) (bound : page < 2 ^ 35) : LowPath q :=
  lowPath_closed q [i] (path_low bound leaf.path)

/-- A leaf is not the entry for a table of level 2 or 3. -/
theorem Leaf.not_upper (leaf : Leaf m root page q i rest u) (upper : q.length ≤ 1) :
    m.entry u i ≠ 0 ∧ pteFrame (m.entry u i) = none := by
  have present := leaf.present
  have length := leaf.length
  refine ⟨by omega, if_neg fun both => ?_⟩
  rcases leaf.last with rfl | ⟨huge, _⟩
  · rw [List.length_nil] at length
    omega
  · omega

theorem pagePath_slot (page : Nat) :
    pagePath page = slotTable (page / 512) ++ [slotIndex (page / 512), Fin.ofNat 512 page] := by
  unfold pagePath slotTable slotIndex
  rw [Nat.div_div_eq_div_mul, Nat.div_div_eq_div_mul]
  rfl

theorem slotTable_low (bound : n < 2 ^ 26) : LowPath (slotTable n) := by
  refine ⟨show 2 ≤ 4 by decide, fun i first => ?_⟩
  cases Option.some.inj first
  rw [Fin.val_ofNat]
  omega

theorem slot_inj {f : Nat} (bound : n < 2 ^ 26) (bound' : f < 2 ^ 26) (table : slotTable n = slotTable f)
    (index : slotIndex n = slotIndex f) : n = f := by
  simp only [slotTable, slotIndex, List.cons.injEq, and_true, Fin.ext_iff, Fin.val_ofNat] at table index
  omega

/-- An edit of the tables above the slots of 2 MiB: no table goes away, a new one
is blank, and an entry that is changed is one for a table of level 2 or 3. -/
structure AboveSlots (root : Nat) (m m' : Mem) : Prop where
  kept : ∀ {q u}, LowPath q → tableWalk m root q = some u → tableWalk m' root q = some u
  built : ∀ {q u}, LowPath q → tableWalk m' root q = some u → tableWalk m root q = some u ∨ ∀ j, m'.entry u j = 0
  entries : ∀ {q u} j, LowPath q → tableWalk m root q = some u → m'.entry u j = m.entry u j ∨
    q.length ≤ 1 ∧ (m.entry u j = 0 ∨ pteFrame (m.entry u j) ≠ none) ∧ pteFrame (m'.entry u j) ≠ none

theorem AboveSlots.hwTranslate (above : AboveSlots root m m') (bound : x < 2 ^ 47) :
    hwTranslate m' root x = hwTranslate m root x := by
  have inside : x / 4096 < 2 ^ 35 := by omega
  refine Option.ext fun y => ?_
  rw [hwTranslate_some_iff, hwTranslate_some_iff]
  constructor
  · rintro ⟨q, i, rest, u, leaf, rfl⟩
    have low := leaf.low inside
    have present := leaf.present
    have last := leaf.last
    rcases above.built low leaf.reached with reached | blank
    · rcases above.entries i low reached with same | ⟨upper, _, table⟩
      · rw [same] at present last
        exact ⟨q, i, rest, u, ⟨leaf.path, reached, present, last⟩, by rw [same]⟩
      · exact absurd (leaf.not_upper upper).2 table
    · rw [blank i] at present
      cases present
  · rintro ⟨q, i, rest, u, leaf, rfl⟩
    have low := leaf.low inside
    have present := leaf.present
    have last := leaf.last
    have reached := above.kept low leaf.reached
    rcases above.entries i low leaf.reached with same | ⟨upper, table, _⟩
    · rw [← same] at present last
      exact ⟨q, i, rest, u, ⟨leaf.path, reached, present, last⟩, by rw [same]⟩
    · obtain ⟨used, huge⟩ := leaf.not_upper upper
      exact absurd huge (table.resolve_left used)

theorem AboveSlots.freeSlot (above : AboveSlots root m m') (bound : n < 2 ^ 26) :
    FreeSlot m' root n ↔ FreeSlot m root n := by
  have low := slotTable_low bound
  have same {t : Nat} (reached : tableWalk m root (slotTable n) = some t) :
      m'.entry t (slotIndex n) = m.entry t (slotIndex n) :=
    (above.entries _ low reached).resolve_right fun upper => absurd upper.1 (by simp [slotTable])
  constructor
  · intro free t reached
    rw [← same reached]
    exact free t (above.kept low reached)
  · intro free t reached
    rcases above.built low reached with old | blank
    · rw [same old]
      exact free t old
    · exact blank _

end

/-- Growth of the tables on the way to a slot of 2 MiB: a free entry is linked to
a blank table, or an entry for a table gets other flags. -/
inductive HugeGrowth (root frame : Nat) (m : Mem) (a : FrameAlloc) : Mem → FrameAlloc → Prop
  | refl : HugeGrowth root frame m a m a
  | link {m' a' a'' p i rest t f e} : HugeGrowth root frame m a m' a' → slotTable frame = p ++ i :: rest →
      tableWalk m' root p = some t → m'.entry t i = 0 → a'.allocateContiguous 1 = some (f, a'') →
      pteFrame e = some f → e < 2 ^ 64 → HugeGrowth root frame m a ((m'.zeroFrame f).setEntry t i e) a''
  | widen {m' a' p i rest t f e} : HugeGrowth root frame m a m' a' → slotTable frame = p ++ i :: rest →
      tableWalk m' root p = some t → pteFrame (m'.entry t i) = some f → e / 8 = m'.entry t i / 8 →
      pteFrame e = some f → e < 2 ^ 64 → HugeGrowth root frame m a (m'.setEntry t i e) a'

/-- A mapper that maps a frame of 2 MiB whenever its slot is free, and that says
`PageAlreadyMapped` whenever anything is in the slot. -/
structure ExactDeviceMapper extends DeviceMapper where
  identityMap_exact : ∀ {m a root frame flags result m' a'}, Owns m a {root} ∅ → frame < 2 ^ 26 → PageFlags.Ok flags →
    identityMap m a root frame flags = (result, m', a') → result ≠ .failed →
    ∃ middle t, HugeGrowth root frame m a middle a' ∧ tableWalk middle root (slotTable frame) = some t ∧
      ((result = .mapped ∧ middle.entry t (slotIndex frame) = 0 ∧
        m' = middle.setEntry t (slotIndex frame) (pte (frame * 512) (flags ||| PageFlags.hugePage))) ∨
      (result = .pageAlreadyMapped ∧ middle.entry t (slotIndex frame) ≠ 0 ∧ m' = middle))

section
variable {m m' : Mem} {a a' a'' : FrameAlloc} {R pend : Set Nat} {root frame n x t f e : Nat} {p rest : List (Fin 512)}
  {i : Fin 512}

theorem slotTable_short (path : slotTable frame = p ++ i :: rest) : p.length ≤ 1 := by
  have length : 2 = (p ++ i :: rest).length := congrArg List.length path
  rw [List.length_append, List.length_cons] at length
  omega

theorem slotTable_path (path : slotTable frame = p ++ i :: rest) :
    pagePath (frame * 512) = p ++ i :: (rest ++ [slotIndex frame, 0]) := by
  rw [FourLevel.hugePath, ← List.cons_append, ← List.append_assoc, ← path]
  rfl

theorem HugeGrowth.path (growth : HugeGrowth root frame m a m' a') : PathGrowth root (frame * 512) m a m' a' := by
  have more (rest : List (Fin 512)) : rest ++ [slotIndex frame, 0] ≠ [] := List.append_ne_nil_of_right_ne_nil _ (by simp)
  induction growth with
  | refl => exact .refl
  | link _ path reached free run entry small ih =>
    exact ih.link (slotTable_path path) (more _) reached free run entry small
  | widen _ path reached table same8 same small ih =>
    refine ih.widen (slotTable_path path) (more _) reached (fun none => ?_) same8 (same.trans table.symm) small
    rw [none] at table
    cases table

theorem HugeGrowth.owns (growth : HugeGrowth root frame m a m' a') (owns : Owns m a R pend) (member : root ∈ R)
    (bound : frame < 2 ^ 26) : Owns m' a' R pend :=
  ((growth.path.growth (by omega)).grown owns member).owns

theorem slotTable_path_low (bound : frame < 2 ^ 26) (path : slotTable frame = p ++ i :: rest) : LowPath (p ++ [i]) :=
  path_low (by omega) (slotTable_path path)

theorem aboveSlots_link (owns : Owns m a R pend) (member : root ∈ R) (bound : frame < 2 ^ 26)
    (path : slotTable frame = p ++ i :: rest) (reached : tableWalk m root p = some t) (free : m.entry t i = 0)
    (run : a.allocateContiguous 1 = some (f, a')) (entry : pteFrame e = some f) (small : e < 2 ^ 64) :
    AboveSlots root m ((m.zeroFrame f).setEntry t i e) := by
  have low := slotTable_path_low bound path
  have lowP := lowPath_closed p [i] low
  have unplaced : ¬Forest.Placed pteFrame LowPath m.entry R f := fun placed =>
    (owns.guarded.hands run).fresh f (Nat.le_refl f) (Nat.lt_succ_self f) (owns.spaces.placed f placed).1
  have attach := link_attach member low reached free unplaced entry small
  have walks {q : List (Fin 512)} (lowQ : LowPath q) (u : Nat) :=
    owns.spaces.walk_attach lowPath_closed attach unplaced member lowQ u
  have apart : f ≠ t := fun same => unplaced ⟨root, p, member, lowP, same ▸ reached⟩
  refine ⟨fun lowQ there => (walks lowQ _).mpr (Or.inl there), fun {q u} lowQ there => ?_, fun {q u} j lowQ there => ?_⟩
  · rcases (walks lowQ u).mp there with old | ⟨_, _, rfl⟩
    · exact Or.inl old
    · refine Or.inr fun j => ?_
      rw [Mem.entry_setEntry_of_ne _ _ (fun both => apart both.1), Mem.entry_zeroFrame_self]
  · have other : u ≠ f := fun same => unplaced ⟨root, q, member, lowQ, same ▸ there⟩
    by_cases here : u = t ∧ j = i
    · obtain ⟨rfl, rfl⟩ := here
      obtain ⟨_, rfl⟩ := owns.spaces.exclusive member member lowQ lowP there reached
      rw [Mem.entry_setEntry_self _ _ _ small, entry]
      exact Or.inr ⟨slotTable_short path, Or.inl free, Option.some_ne_none f⟩
    · rw [Mem.entry_setEntry_of_ne _ _ here, Mem.entry_zeroFrame_of_ne _ other]
      exact Or.inl rfl

theorem aboveSlots_widen (owns : Owns m a R pend) (member : root ∈ R) (bound : frame < 2 ^ 26)
    (path : slotTable frame = p ++ i :: rest) (reached : tableWalk m root p = some t)
    (table : pteFrame (m.entry t i) = some f) (entry : pteFrame e = some f) (small : e < 2 ^ 64) :
    AboveSlots root m (m.setEntry t i e) := by
  have lowP := lowPath_closed p [i] (slotTable_path_low bound path)
  have walks (q : List (Fin 512)) : tableWalk (m.setEntry t i e) root q = tableWalk m root q :=
    Forest.walk_congr fun _ j _ u _ _ => entry_widen (entry.trans table.symm) small u j
  refine ⟨fun _ there => (walks _).trans there, fun _ there => Or.inl ((walks _).symm.trans there),
    fun {q u} j lowQ there => ?_⟩
  by_cases here : u = t ∧ j = i
  · obtain ⟨rfl, rfl⟩ := here
    obtain ⟨_, rfl⟩ := owns.spaces.exclusive member member lowQ lowP there reached
    rw [Mem.entry_setEntry_self _ _ _ small, entry, table]
    exact Or.inr ⟨slotTable_short path, Or.inr (Option.some_ne_none f), Option.some_ne_none f⟩
  · exact Or.inl (Mem.entry_setEntry_of_ne _ _ here)

/-- Tables on the way change no translation, and fill no slot. -/
theorem HugeGrowth.unchanged (growth : HugeGrowth root frame m a m' a') (owns : Owns m a R pend) (member : root ∈ R)
    (bound : frame < 2 ^ 26) :
    (∀ x < 2 ^ 47, hwTranslate m' root x = hwTranslate m root x) ∧
      ∀ n < 2 ^ 26, FreeSlot m' root n ↔ FreeSlot m root n := by
  induction growth with
  | refl => exact ⟨fun _ _ => rfl, fun _ _ => Iff.rfl⟩
  | link before path reached free run entry small ih =>
    have above := aboveSlots_link (before.owns owns member bound) member bound path reached free run entry small
    exact ⟨fun x low => (above.hwTranslate low).trans (ih.1 x low), fun n low => (above.freeSlot low).trans (ih.2 n low)⟩
  | widen before path reached table _ entry small ih =>
    have above := aboveSlots_widen (before.owns owns member bound) member bound path reached table entry small
    exact ⟨fun x low => (above.hwTranslate low).trans (ih.1 x low), fun n low => (above.freeSlot low).trans (ih.2 n low)⟩

/-- What mapping frames of 2 MiB to themselves does: those in free slots are
mapped, and all other addresses are translated as before. -/
structure HugeMapped (root : Nat) (frames : List Nat) (m m' : Mem) : Prop where
  mapped : ∀ x < 2 ^ 47, x / 2 ^ 21 ∈ frames → FreeSlot m root (x / 2 ^ 21) → hwTranslate m' root x = some x
  others : ∀ x < 2 ^ 47, (x / 2 ^ 21 ∈ frames → ¬FreeSlot m root (x / 2 ^ 21)) → hwTranslate m' root x = hwTranslate m root x
  slots : ∀ n < 2 ^ 26, FreeSlot m' root n ↔ FreeSlot m root n ∧ n ∉ frames

theorem HugeMapped.refl (root : Nat) (m : Mem) : HugeMapped root [] m m :=
  ⟨fun _ _ none => absurd none List.not_mem_nil, fun _ _ _ => rfl, fun _ _ => (and_iff_left List.not_mem_nil).symm⟩

theorem HugeMapped.trans {F G : List Nat} {m'' : Mem} (first : HugeMapped root F m m') (second : HugeMapped root G m' m'') :
    HugeMapped root (F ++ G) m m'' := by
  have slot {x : Nat} (low : x < 2 ^ 47) := first.slots (x / 2 ^ 21) (by omega)
  refine ⟨fun x low inside free => ?_, fun x low taken => ?_, fun n low => ?_⟩
  · by_cases early : x / 2 ^ 21 ∈ F
    · rw [second.others x low fun _ still => ((slot low).mp still).2 early]
      exact first.mapped x low early free
    · exact second.mapped x low ((List.mem_append.mp inside).resolve_left early) ((slot low).mpr ⟨free, early⟩)
  · rw [second.others x low fun late still => taken (List.mem_append_right F late) ((slot low).mp still).1]
    exact first.others x low fun early => taken (List.mem_append_left G early)
  · rw [second.slots n low, first.slots n low, List.mem_append, not_or, and_assoc]

/-- The frame that the entry of a huge page stands for. -/
theorem leafAddr_mmio (bound : frame < 2 ^ 26) (inside : x / 2 ^ 21 = frame) :
    leafAddr 2 (pte (frame * 512) (mmioFlags ||| PageFlags.hugePage)) x = x := by
  have value : mmioFlags ||| PageFlags.hugePage = 2 ^ 63 + 0x9b := by decide
  unfold leafAddr pte
  rw [value]
  dsimp only
  omega

/-- Where no entry on the way to an address changes, neither does its translation. -/
theorem hwTranslate_congr (bound : x < 2 ^ 47) (walks : ∀ q, tableWalk m' root q = tableWalk m root q)
    (entries : ∀ q i rest u, pagePath (x / 4096) = q ++ i :: rest → LowPath q → tableWalk m root q = some u →
      m'.entry u i = m.entry u i) : hwTranslate m' root x = hwTranslate m root x := by
  have low {q : List (Fin 512)} {i : Fin 512} {rest : List (Fin 512)} (path : pagePath (x / 4096) = q ++ i :: rest) :
      LowPath q := lowPath_closed q [i] (path_low (by omega) path)
  refine Option.ext fun y => ?_
  rw [hwTranslate_some_iff, hwTranslate_some_iff]
  constructor
  · rintro ⟨q, i, rest, u, ⟨path, reached, present, last⟩, rfl⟩
    rw [walks] at reached
    rw [entries q i rest u path (low path) reached] at present last ⊢
    exact ⟨q, i, rest, u, ⟨path, reached, present, last⟩, rfl⟩
  · rintro ⟨q, i, rest, u, ⟨path, reached, present, last⟩, rfl⟩
    rw [← entries q i rest u path (low path) reached] at present last ⊢
    rw [← walks] at reached
    exact ⟨q, i, rest, u, ⟨path, reached, present, last⟩, rfl⟩

section Slot
variable (reached : tableWalk m root (slotTable frame) = some t) (free : m.entry t (slotIndex frame) = 0)
  (huge : pteFrame e = none) (small : e < 2 ^ 64)

section
include free huge small

/-- A page of 2 MiB in a free slot is no table. -/
theorem slot_walk (q : List (Fin 512)) : tableWalk (m.setEntry t (slotIndex frame) e) root q = tableWalk m root q :=
  Forest.walk_congr fun _ j _ u _ _ => entry_widen (huge.trans (by rw [free, pteFrame_zero])) small u j

include reached

theorem slot_translate (present : e % 2 = 1) (page : e / 128 % 2 = 1) (inside : x / 2 ^ 21 = frame) :
    hwTranslate (m.setEntry t (slotIndex frame) e) root x = some (leafAddr 2 e x) := by
  have self : (m.setEntry t (slotIndex frame) e).entry t (slotIndex frame) = e := Mem.entry_setEntry_self _ _ _ small
  have slot : x / 4096 / 512 = frame := by omega
  have path := pagePath_slot (x / 4096)
  have there := (slot_walk free huge small (slotTable frame)).trans reached
  rw [slot] at path
  refine hwTranslate_some_iff.mpr ⟨_, _, _, t, ⟨path, there, ?_, Or.inr ⟨?_, by simp⟩⟩, ?_⟩
  · rw [self]
    exact present
  · rw [self]
    exact page
  · rw [self]
    rfl

end

variable (owns : Owns m a R pend) (member : root ∈ R) (bound : frame < 2 ^ 26)
include owns member bound reached

/-- Only the entry of the slot is changed, and it is on no other way. -/
theorem slot_entry {q : List (Fin 512)} {u : Nat} {j : Fin 512} (low : LowPath q) (there : tableWalk m root q = some u)
    (other : ¬(q = slotTable frame ∧ j = slotIndex frame)) :
    (m.setEntry t (slotIndex frame) e).entry u j = m.entry u j := by
  refine Mem.entry_setEntry_of_ne _ _ ?_
  rintro ⟨rfl, rfl⟩
  exact other ⟨(owns.spaces.exclusive member member low (slotTable_low bound) there reached).2, rfl⟩

include free huge small

theorem slot_others (low : x < 2 ^ 47) (outside : x / 2 ^ 21 ≠ frame) :
    hwTranslate (m.setEntry t (slotIndex frame) e) root x = hwTranslate m root x := by
  refine hwTranslate_congr low (slot_walk free huge small) fun q i rest u path lowQ there =>
    slot_entry reached owns member bound lowQ there ?_
  rintro ⟨rfl, rfl⟩
  rw [pagePath_slot] at path
  obtain ⟨table, index⟩ := List.append_inj path rfl
  have same := slot_inj (by omega) bound table (List.cons.inj index).1
  omega

theorem slot_free_iff (present : e % 2 = 1) (low : n < 2 ^ 26) :
    FreeSlot (m.setEntry t (slotIndex frame) e) root n ↔ FreeSlot m root n ∧ n ≠ frame := by
  have walks (q : List (Fin 512)) : tableWalk (m.setEntry t (slotIndex frame) e) root q = tableWalk m root q :=
    slot_walk free huge small q
  by_cases here : n = frame
  · subst here
    refine iff_of_false (fun empty => ?_) fun both => both.2 rfl
    have zero := empty t ((walks _).trans reached)
    rw [Mem.entry_setEntry_self _ _ _ small] at zero
    omega
  · have same {u : Nat} (there : tableWalk m root (slotTable n) = some u) :
        (m.setEntry t (slotIndex frame) e).entry u (slotIndex n) = m.entry u (slotIndex n) :=
      slot_entry reached owns member bound (slotTable_low low) there fun both => here (slot_inj low bound both.1 both.2)
    unfold FreeSlot
    rw [and_iff_left here]
    refine forall_congr' fun u => ?_
    rw [walks]
    exact forall_congr' fun there => by rw [same there]

omit huge small

/-- A frame of 2 MiB is mapped to itself in its free slot. -/
theorem hugeMapped_free : HugeMapped root [frame] m
    (m.setEntry t (slotIndex frame) (pte (frame * 512) (mmioFlags ||| PageFlags.hugePage))) := by
  obtain ⟨huge, small⟩ := mmio_entry (show frame < 2 ^ 31 by omega)
  have flags : mmioFlags ||| PageFlags.hugePage = 2 ^ 63 + 0x9b := by decide
  have present : pte (frame * 512) (mmioFlags ||| PageFlags.hugePage) % 2 = 1 := by
    rw [flags, pte]
    omega
  have page : pte (frame * 512) (mmioFlags ||| PageFlags.hugePage) / 128 % 2 = 1 := by
    rw [flags, pte]
    omega
  have vacant : FreeSlot m root frame := fun u there => by
    cases reached.symm.trans there
    exact free
  refine ⟨fun x low inside _ => ?_, fun x low taken => ?_, fun n low => ?_⟩
  · have same := List.mem_singleton.mp inside
    rw [slot_translate reached free huge small present page same, leafAddr_mmio bound same]
  · refine slot_others reached free huge small owns member bound low fun inside => ?_
    exact taken (List.mem_singleton.mpr inside) (inside.symm ▸ vacant)
  · rw [slot_free_iff reached free huge small owns member bound present low, List.mem_singleton]

end Slot

variable {mapper : ExactDeviceMapper} {result : MmioResult}

/-- What one call of `identity_map` does to the translation, whether the frame is
mapped or its slot is in use. -/
theorem ExactDeviceMapper.identityMap_huge (owns : Owns m a {root} ∅) (bound : frame < 2 ^ 26)
    (run : mapper.identityMap m a root frame mmioFlags = (result, m', a')) (done : result ≠ .failed) :
    HugeMapped root [frame] m m' := by
  have member : root ∈ ({root} : Set Nat) := Set.mem_singleton root
  obtain ⟨middle, t, growth, reached, kind⟩ := mapper.identityMap_exact owns bound (by decide) run done
  obtain ⟨translated, slots⟩ := growth.unchanged owns member bound
  rcases kind with ⟨_, free, rfl⟩ | ⟨_, used, rfl⟩
  · have mapped := hugeMapped_free reached free (growth.owns owns member bound) member bound
    refine ⟨fun x low inside vacant => mapped.mapped x low inside ((slots _ (by omega)).mpr vacant), fun x low taken => ?_,
      fun n low => (mapped.slots n low).trans (and_congr_left fun _ => slots n low)⟩
    rw [mapped.others x low fun inside vacant => taken inside ((slots _ (by omega)).mp vacant), translated x low]
  · have taken : ¬FreeSlot m root frame := fun free => used ((slots frame bound).mpr free t reached)
    refine ⟨fun x low inside free => ?_, fun x low _ => translated x low, fun n low => ?_⟩
    · rw [List.mem_singleton.mp inside] at free
      exact absurd free taken
    · rw [slots n low]
      refine (and_iff_left_of_imp fun free same => ?_).symm
      rw [List.mem_singleton.mp same] at free
      exact taken free

end

namespace FourLevel

section
variable {m m' m0 : Mem} {a a' a0 : FrameAlloc} {root frame parent t : Nat} {p : List (Fin 512)}

/-- The way down to a slot of 2 MiB only builds and widens tables on it. -/
theorem descend_huge {f : Nat} (path : List (Fin 512)) (owns : Owns m0 a0 {root} ∅)
    (growth : HugeGrowth root frame m0 a0 m a) (bound : frame < 2 ^ 26) (whole : slotTable frame = p ++ path)
    (ok : PageFlags.Ok parent) (small : parent < 8) (reached : tableWalk m root p = some t)
    (run : descend parent path m a t = (some f, m', a')) :
    HugeGrowth root frame m0 a0 m' a' ∧ tableWalk m' root (slotTable frame) = some f := by
  induction path generalizing p m a t with
  | nil =>
    cases run
    rw [whole, List.append_nil]
    exact ⟨growth, reached⟩
  | cons i tail ih =>
    cases next : nextTable parent m a t i with
    | mk found both =>
      obtain ⟨m1, a1⟩ := both
      have reached1 := (nextTable_path owns growth.path (by omega) (slotTable_path whole)
        (List.append_ne_nil_of_right_ne_nil _ (by simp)) ok small reached next).2.2
      rw [descend, next] at run
      rcases nextTable_cases next with ⟨rfl, _⟩ | ⟨g, rfl, free, given, inRam, rfl⟩ | ⟨g, rfl, used, entry, rfl, rfl⟩
      · cases run
      · have built := growth.link whole reached free given (pteFrame_pte inRam ok) (pte_lt inRam ok)
        exact ih built (by rw [whole, List.append_cons]) (reached1 g rfl) run
      · have same : pteFrame (m.entry t i ||| parent) = some g :=
          (pteFrame_or small (by rw [entry]; exact Option.some_ne_none g)).trans entry
        have wide := growth.widen whole reached entry (or_div_eight small) same
          (Nat.or_lt_two_pow (m.entry_lt t i) (Nat.lt_trans small (by decide)))
        exact ih wide (by rw [whole, List.append_cons]) (reached1 g rfl) run

theorem identityMap_slot {flags : Nat} {result : MmioResult} (owns : Owns m a {root} ∅) (bound : frame < 2 ^ 26)
    (ok : PageFlags.Ok flags) (run : identityMap m a root frame flags = (result, m', a')) (done : result ≠ .failed) :
    ∃ middle t, HugeGrowth root frame m a middle a' ∧ tableWalk middle root (slotTable frame) = some t ∧
      ((result = .mapped ∧ middle.entry t (slotIndex frame) = 0 ∧
        m' = middle.setEntry t (slotIndex frame) (pte (frame * 512) (flags ||| PageFlags.hugePage))) ∨
      (result = .pageAlreadyMapped ∧ middle.entry t (slotIndex frame) ≠ 0 ∧ m' = middle)) := by
  obtain ⟨found, middle, down, kind⟩ := identityMap_descend run
  rcases kind with ⟨_, rfl, _⟩ | ⟨t, rfl, kind⟩ | ⟨t, rfl, kind⟩
  · exact absurd rfl done
  · obtain ⟨growth, reached⟩ := descend_huge (p := []) _ owns .refl bound rfl (parent_ok ok)
      (Nat.mod_lt flags (by decide)) rfl down
    exact ⟨middle, t, growth, reached, Or.inl kind⟩
  · obtain ⟨growth, reached⟩ := descend_huge (p := []) _ owns .refl bound rfl (parent_ok ok)
      (Nat.mod_lt flags (by decide)) rfl down
    exact ⟨middle, t, growth, reached, Or.inr kind⟩

end

section
attribute [local irreducible] identityMap

theorem deviceMapper_identityMap : deviceMapper.identityMap = identityMap := rfl

end

def exactDeviceMapper : ExactDeviceMapper where
  toDeviceMapper := deviceMapper
  identityMap_exact owns bound ok run done := by
    rw [deviceMapper_identityMap] at run
    exact identityMap_slot owns bound ok run done

end FourLevel

end ProkaKernel
