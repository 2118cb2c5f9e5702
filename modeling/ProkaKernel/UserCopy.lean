import ProkaKernel.ImageLayout
import ProkaKernel.Overflow

namespace ProkaKernel

/-- `VirtAddr::try_new` accepts the addresses whose upper 17 bits are equal. -/
def Canonical (addr : Nat) : Prop := addr < 2 ^ 47 ∨ (2 ^ 64 - 2 ^ 47 ≤ addr ∧ addr < 2 ^ 64)

instance (addr : Nat) : Decidable (Canonical addr) := inferInstanceAs (Decidable (_ ∨ _))

theorem Canonical.same_page {addr other : Nat} (canonical : Canonical addr) (page : other / 4096 = addr / 4096) :
    Canonical other := by
  unfold Canonical at canonical ⊢
  omega

namespace UserCopy

/-- The frame of the page that the copy loop reads in round `i`; the inner
`none` is the early return, the outer one a panic. -/
def visit (overflow : Overflow) (m : Mem) (root base i : Nat) : Option (Option Nat) :=
  (overflow.fit 64 (base + i * 0x1000)).map fun addr =>
    if Canonical addr then translate m root (addr / 4096) else none

def frameBytes (m : Mem) (frame : Nat) : List UInt8 := (List.range 4096).map fun x => m (frame * 4096 + x)

def copyPages (overflow : Overflow) (m : Mem) (root base : Nat) : Nat → Nat → List UInt8 → Option (Option (List UInt8))
  | 0, _, buf => some (some buf)
  | left + 1, i, buf =>
    match visit overflow m root base i with
    | none => none
    | some none => some none
    | some (some frame) => copyPages overflow m root base left (i + 1) (buf ++ frameBytes m frame)

/-- `copy_buffer_to_kernel::<u8>`. -/
def copyBufferToKernel (overflow : Overflow) (m : Mem) (root base size : Nat) : Option (Option (List UInt8)) :=
  match overflow.fit 64 (size + 0xfff) with
  | none => none
  | some rounded => copyPages overflow m root base (rounded / 2 ^ 12) 0 []

section Loop
variable {overflow : Overflow} {m : Mem} {root base : Nat}

/-- The loop returns early at the first page that is not mapped. -/
theorem copyPages_none_iff (left i : Nat) (buf : List UInt8) :
    copyPages overflow m root base left i buf = some none ↔
      ∃ l, i ≤ l ∧ l < i + left ∧ visit overflow m root base l = some none ∧
        ∀ l', i ≤ l' → l' < l → visit overflow m root base l' ≠ none := by
  induction left generalizing i buf with
  | zero =>
    refine iff_of_false (by simp [copyPages]) ?_
    rintro ⟨l, lower, upper, _⟩
    omega
  | succ left ih =>
    rw [copyPages]
    split
    · rename_i panics
      refine iff_of_false (by simp) ?_
      rintro ⟨l, lower, _, missing, earlier⟩
      by_cases here : l = i
      · rw [here, panics] at missing
        cases missing
      · exact earlier i (Nat.le_refl i) (by omega) panics
    · rename_i missing
      refine iff_of_true rfl ⟨i, Nat.le_refl i, by omega, missing, fun l' lower upper => ?_⟩
      omega
    · rename_i frame found
      rw [ih]
      constructor
      · rintro ⟨l, lower, upper, missing, earlier⟩
        refine ⟨l, by omega, by omega, missing, fun l' above below => ?_⟩
        by_cases here : l' = i
        · rw [here, found]
          exact Option.some_ne_none _
        · exact earlier l' (by omega) below
      · rintro ⟨l, lower, upper, missing, earlier⟩
        have later : l ≠ i := by
          rintro rfl
          rw [found] at missing
          cases missing
        exact ⟨l, by omega, by omega, missing, fun l' above below => earlier l' (by omega) below⟩

/-- Two memories in which the same pages are found, with the same bytes. -/
theorem copyPages_congr {m' : Mem} (left i : Nat) (buf : List UInt8)
    (same : ∀ l, i ≤ l → l < i + left → visit overflow m' root base l = visit overflow m root base l)
    (bytes : ∀ l frame, i ≤ l → l < i + left → visit overflow m root base l = some (some frame) →
      frameBytes m' frame = frameBytes m frame) :
    copyPages overflow m' root base left i buf = copyPages overflow m root base left i buf := by
  induction left generalizing i buf with
  | zero => rfl
  | succ left ih =>
    rw [copyPages, copyPages, same i (Nat.le_refl i) (by omega)]
    split
    · rfl
    · rfl
    · rename_i frame found
      rw [bytes i frame (Nat.le_refl i) (by omega) found]
      exact ih (i + 1) _ (fun l lower upper => same l (by omega) (by omega))
        fun l frame lower upper => bytes l frame (by omega) (by omega)

theorem copyPages_panics {left i : Nat} {buf : List UInt8} (panics : copyPages overflow m root base left i buf = none) :
    ∃ l, i ≤ l ∧ l < i + left ∧ visit overflow m root base l = none := by
  induction left generalizing i buf with
  | zero => cases panics
  | succ left ih =>
    rw [copyPages] at panics
    split at panics
    · rename_i here
      exact ⟨i, Nat.le_refl i, by omega, here⟩
    · cases panics
    · obtain ⟨l, lower, upper, there⟩ := ih panics
      exact ⟨l, by omega, by omega, there⟩

theorem frameBytes_length (m : Mem) (frame : Nat) : (frameBytes m frame).length = 4096 := by
  rw [frameBytes, List.length_map, List.length_range]

theorem frameBytes_getElem? (m : Mem) (frame : Nat) {x : Nat} (bound : x < 4096) :
    (frameBytes m frame)[x]? = some (m (frame * 4096 + x)) := by
  rw [frameBytes, List.getElem?_map, List.getElem?_range bound]
  rfl

/-- A copy that succeeds appends the whole page of every round. -/
theorem copyPages_ok {left i : Nat} {buf out : List UInt8}
    (done : copyPages overflow m root base left i buf = some (some out)) :
    out.length = buf.length + left * 4096 ∧ (∀ j, j < buf.length → out[j]? = buf[j]?) ∧
      ∀ l, l < left → ∃ frame, visit overflow m root base (i + l) = some (some frame) ∧
        ∀ x, x < 4096 → out[buf.length + l * 4096 + x]? = some (m (frame * 4096 + x)) := by
  induction left generalizing i buf with
  | zero =>
    cases done
    exact ⟨by omega, fun _ _ => rfl, fun l none => absurd none (Nat.not_lt_zero l)⟩
  | succ left ih =>
    rw [copyPages] at done
    split at done
    · cases done
    · cases done
    · rename_i frame found
      obtain ⟨length, prior, pages⟩ := ih done
      rw [List.length_append, frameBytes_length] at length prior pages
      refine ⟨by omega, fun j bound => ?_, fun l bound => ?_⟩
      · rw [prior j (by omega), List.getElem?_append_left bound]
      · cases l with
        | zero =>
          refine ⟨frame, found, fun x inside => ?_⟩
          rw [Nat.zero_mul, Nat.add_zero, prior _ (by omega), List.getElem?_append_right (by omega),
            Nat.add_sub_cancel_left, frameBytes_getElem? m frame inside]
        | succ l =>
          obtain ⟨frame', found', bytes⟩ := pages l (by omega)
          rw [Nat.add_right_comm, Nat.add_assoc] at found'
          refine ⟨frame', found', fun x inside => ?_⟩
          rw [← bytes x inside]
          congr 1
          omega

end Loop

/-- The byte at a virtual address, if there is one. -/
def userByte (m : Mem) (root addr : Nat) : Option UInt8 :=
  if Canonical addr then readByte m root addr else none

/-- The result of a copy as it is meant: the bytes of the buffer in order, or
nothing if one of them does not exist. -/
def Exact (m : Mem) (root base size : Nat) : Option (List UInt8) → Prop
  | some bytes => bytes.length = size ∧ ∀ j, j < size → bytes[j]? = userByte m root (base + j)
  | none => ∃ j, j < size ∧ userByte m root (base + j) = none

section Exact
variable {overflow : Overflow} {m : Mem} {root base size : Nat}

theorem visit_missing {l : Nat} (missing : visit overflow m root base l = some none) :
    userByte m root (base + l * 4096) = none := by
  obtain ⟨addr, sum, none⟩ := Option.map_eq_some_iff.mp missing
  unfold userByte
  rcases Overflow.fit_cases sum with ⟨rfl, _⟩ | ⟨_, large, _⟩
  · split
    · rename_i canonical
      rw [if_pos canonical] at none
      rw [readByte, none]
      rfl
    · rfl
  · exact if_neg fun canonical => by unfold Canonical at canonical; omega

theorem visit_found {l frame : Nat} (small : base + l * 4096 < 2 ^ 64) (aligned : base % 4096 = 0)
    (found : visit overflow m root base l = some (some frame)) {x : Nat} (bound : x < 4096) :
    userByte m root (base + (l * 4096 + x)) = some (m (frame * 4096 + x)) := by
  rw [visit, overflow.fit_of_lt small, Option.map_some, Option.some.injEq] at found
  split at found
  · rename_i canonical
    have page : (base + (l * 4096 + x)) / 4096 = (base + l * 4096) / 4096 := by omega
    have within : Canonical (base + (l * 4096 + x)) := canonical.same_page page
    have offset : (base + (l * 4096 + x)) % 4096 = x := by omega
    rw [userByte, if_pos within, readByte, page, found, Option.map_some, offset]
  · cases found

/-- The number of rounds for a size that does not overflow. -/
theorem copyBuffer_small (small : size + 0xfff < 2 ^ 64) :
    copyBufferToKernel overflow m root base size = copyPages overflow m root base ((size + 0xfff) / 2 ^ 12) 0 [] := by
  unfold copyBufferToKernel
  rw [overflow.fit_of_lt small]

/-- A size that overflows is copied in no round. -/
theorem copyBuffer_large {out : Option (List UInt8)} (bound : size < 2 ^ 64) (large : 2 ^ 64 ≤ size + 0xfff)
    (run : copyBufferToKernel overflow m root base size = some out) : out = some [] := by
  unfold copyBufferToKernel at run
  cases sum : overflow.fit 64 (size + 0xfff) with
  | none =>
    rw [sum] at run
    cases run
  | some rounded =>
    have none : rounded / 2 ^ 12 = 0 := by
      rcases Overflow.fit_cases sum with ⟨_, fits⟩ | ⟨_, _, wrapped⟩ <;> omega
    rw [sum] at run
    dsimp only at run
    rw [none] at run
    exact (Option.some.inj run).symm

/-- An address of the loop lies outside the canonical ones. -/
def LeavesCanonical (overflow : Overflow) (base size : Nat) : Prop :=
  ∃ i, i * 0x1000 < size ∧ ∃ addr, overflow.fit 64 (base + i * 0x1000) = some addr ∧ ¬Canonical addr

theorem exact_of_leaves (small : size + 0xfff < 2 ^ 64) (leaves : LeavesCanonical overflow base size) :
    ∃ out, copyBufferToKernel overflow m root base size = some out ∧ Exact m root base size out := by
  obtain ⟨i, inside, addr, sum, outside⟩ := leaves
  have missing : visit overflow m root base i = some none := by
    rw [visit, sum, Option.map_some, if_neg outside]
  have earlier (l : Nat) (below : l < i) : visit overflow m root base l ≠ none := by
    intro panics
    obtain ⟨checked, large⟩ := Overflow.fit_none (Option.map_eq_none_iff.mp panics)
    rcases Overflow.fit_cases sum with ⟨_, fits⟩ | ⟨unchecked, _⟩
    · omega
    · rw [checked] at unchecked
      cases unchecked
  refine ⟨none, ?_, i * 0x1000, inside, visit_missing missing⟩
  rw [copyBuffer_small small, copyPages_none_iff]
  exact ⟨i, Nat.zero_le i, by omega, missing, fun l _ below => earlier l below⟩

theorem exact_of_whole_pages (aligned : base % 4096 = 0) (whole : size % 4096 = 0) (fits : base + size ≤ 2 ^ 64)
    (small : size + 0xfff < 2 ^ 64) :
    ∃ out, copyBufferToKernel overflow m root base size = some out ∧ Exact m root base size out := by
  have rounds : (size + 0xfff) / 2 ^ 12 * 4096 = size := by omega
  rw [copyBuffer_small small]
  cases run : copyPages overflow m root base ((size + 0xfff) / 2 ^ 12) 0 [] with
  | none =>
    obtain ⟨l, _, upper, panics⟩ := copyPages_panics run
    have large := (Overflow.fit_none (Option.map_eq_none_iff.mp panics)).2
    omega
  | some out =>
    refine ⟨out, rfl, ?_⟩
    cases out with
    | none =>
      obtain ⟨l, _, upper, missing, _⟩ := (copyPages_none_iff _ _ _).mp run
      exact ⟨l * 4096, by omega, visit_missing missing⟩
    | some bytes =>
      obtain ⟨length, _, pages⟩ := copyPages_ok run
      refine ⟨by rw [length, List.length_nil]; omega, fun j inside => ?_⟩
      obtain ⟨frame, found, content⟩ := pages (j / 4096) (by omega)
      have split : j / 4096 * 4096 + j % 4096 = j := Nat.div_add_mod' j 4096
      have byte := content (j % 4096) (Nat.mod_lt j (by decide))
      rw [List.length_nil, Nat.zero_add, split] at byte
      rw [Nat.zero_add] at found
      rw [byte, ← visit_found (by omega) aligned found (Nat.mod_lt j (by decide)), split]

end Exact

/-- A memory with tables in frames 0 to 3 that map every page to frame 4, whose
first byte is the only one that is not zero. -/
def everyPage : Mem := fun x =>
  if x < 0x4000 then
    if x % 8 = 0 then 1 else if x % 8 = 1 then UInt8.ofNat ((x / 4096 + 1) * 16) else 0
  else if x = 0x4000 then 1 else 0

theorem everyPage_entry {t : Nat} (table : t < 4) (i : Fin 512) : everyPage.entry t i = pte (t + 1) 1 := by
  have byte (k : Nat) (small : k < 8) : everyPage (t * 4096 + i * 8 + k) =
      if k = 0 then 1 else if k = 1 then UInt8.ofNat ((t + 1) * 16) else 0 := by
    have rest : (t * 4096 + i * 8 + k) % 8 = k := by omega
    have frame : (t * 4096 + i * 8 + k) / 4096 = t := by omega
    rw [everyPage, if_pos (by omega), rest, frame]
  have flags : (UInt8.ofNat ((t + 1) * 16)).toNat = (t + 1) * 16 := by
    rw [UInt8.toNat_ofNat']
    omega
  have first := byte 0 (by decide)
  have second := byte 1 (by decide)
  have others : Mem.load everyPage (t * 4096 + i * 8 + 1 + 1) 6 = 0 := by
    refine Mem.load_zero fun x lower upper => ?_
    obtain ⟨k, rfl⟩ : ∃ k, x = t * 4096 + i * 8 + k := ⟨x - (t * 4096 + i * 8), by omega⟩
    rw [byte k (by omega), if_neg (by omega), if_neg (by omega)]
  rw [Nat.add_zero, if_pos rfl] at first
  rw [if_neg (by decide), if_pos rfl] at second
  rw [Mem.entry, Mem.load, Mem.load, others, first, second, flags, pte]
  change 1 + 256 * ((t + 1) * 16 + 256 * 0) = (t + 1) * 4096 + 1
  omega

theorem everyPage_translate (page : Nat) : translate everyPage 0 page = some 4 := by
  have next (t : Nat) (table : t < 4) (i : Fin 512) : pteFrame (everyPage.entry t i) = some (t + 1) := by
    rw [everyPage_entry table]
    exact pteFrame_pte (by omega) (by decide)
  unfold translate pagePath tableWalk
  simp only [Forest.walk, next 0 (by decide), next 1 (by decide), next 2 (by decide), next 3 (by decide),
    Option.bind_some, Nat.reduceAdd]

section
variable {overflow : Overflow} {base size : Nat}

theorem everyPage_visit {i : Nat} {frame : Option Nat} (inside : i * 0x1000 < size)
    (stays : ¬LeavesCanonical overflow base size) (visited : visit overflow everyPage 0 base i = some frame) :
    frame = some 4 := by
  obtain ⟨addr, sum, same⟩ := Option.map_eq_some_iff.mp visited
  have canonical : Canonical addr := by
    by_contra outside
    exact stays ⟨i, inside, addr, sum, outside⟩
  rw [if_pos canonical, everyPage_translate] at same
  exact same.symm

/-- The byte that is not zero is the first one of its page. -/
theorem everyPage_first {x : Nat} (bound : x < 4096) (same : everyPage (4 * 4096) = everyPage (4 * 4096 + x)) : x = 0 := by
  by_contra later
  rw [everyPage, everyPage, if_neg (by omega), if_pos (by omega), if_neg (by omega), if_neg (by omega)] at same
  cases same

/-- The bytes that come back from the copy are those of whole pages. -/
theorem everyPage_exact {bytes : List UInt8} (nonempty : size ≠ 0) (small : size + 0xfff < 2 ^ 64)
    (stays : ¬LeavesCanonical overflow base size) (run : copyBufferToKernel overflow everyPage 0 base size = some (some bytes))
    (exact : Exact everyPage 0 base size (some bytes)) : base % 4096 = 0 ∧ size % 4096 = 0 ∧ base + size ≤ 2 ^ 64 := by
  rw [copyBuffer_small small] at run
  obtain ⟨length, _, pages⟩ := copyPages_ok run
  obtain ⟨sized, same⟩ := exact
  rw [List.length_nil] at length
  have last := same (size - 1) (by omega)
  rw [List.getElem?_eq_getElem (by omega)] at last
  have top : Canonical (base + (size - 1)) := by
    by_contra outside
    rw [userByte, if_neg outside] at last
    cases last
  refine ⟨?_, by omega, by unfold Canonical at top; omega⟩
  obtain ⟨frame, found, content⟩ := pages 0 (by omega)
  cases everyPage_visit (by omega) stays found
  have byte := content 0 (by decide)
  have first := same 0 (by omega)
  rw [List.length_nil, Nat.zero_mul, Nat.add_zero] at byte
  rw [byte, userByte] at first
  split at first
  · rw [readByte, everyPage_translate, Option.map_some, Option.some.injEq] at first
    exact everyPage_first (Nat.mod_lt _ (by decide)) first
  · cases first

/-- Where every page is mapped, only a buffer of whole pages comes out right. -/
theorem whole_pages_of_exact (nonempty : size ≠ 0) (bound : size < 2 ^ 64)
    (exact : ∃ out, copyBufferToKernel overflow everyPage 0 base size = some out ∧ Exact everyPage 0 base size out) :
    size + 0xfff < 2 ^ 64 ∧ (LeavesCanonical overflow base size ∨
      (base % 4096 = 0 ∧ size % 4096 = 0 ∧ base + size ≤ 2 ^ 64)) := by
  obtain ⟨out, run, exact⟩ := exact
  have small : size + 0xfff < 2 ^ 64 := by
    by_contra large
    cases copyBuffer_large bound (Nat.le_of_not_lt large) run
    exact nonempty exact.1.symm
  refine ⟨small, or_iff_not_imp_left.mpr fun stays => ?_⟩
  cases out with
  | none =>
    rw [copyBuffer_small small] at run
    obtain ⟨l, _, upper, missing, _⟩ := (copyPages_none_iff _ _ _).mp run
    cases everyPage_visit (by omega) stays missing
  | some bytes => exact everyPage_exact nonempty small stays run exact

end

/-- For a base and a size the copy is right on every memory and page table
exactly if the buffer is empty, or consists of whole pages, or makes the loop
meet an address that is not canonical. -/
theorem copy_exact_iff (overflow : Overflow) {base size : Nat} (bound : size < 2 ^ 64) :
    (∀ m root, ∃ out, copyBufferToKernel overflow m root base size = some out ∧ Exact m root base size out) ↔
      size = 0 ∨ (size + 0xfff < 2 ^ 64 ∧ (LeavesCanonical overflow base size ∨
        (base % 4096 = 0 ∧ size % 4096 = 0 ∧ base + size ≤ 2 ^ 64))) := by
  constructor
  · intro exact
    refine or_iff_not_imp_left.mpr fun nonempty => ?_
    exact whole_pages_of_exact nonempty bound (exact everyPage 0)
  · rintro (rfl | ⟨small, leaves | ⟨aligned, whole, fits⟩⟩) m root
    · exact ⟨some [], rfl, rfl, fun j none => absurd none (Nat.not_lt_zero j)⟩
    · exact exact_of_leaves small leaves
    · exact exact_of_whole_pages aligned whole fits small

/-- One page at 0x200000 is copied as it is. -/
theorem copy_exact_one_page :
    ∃ out, copyBufferToKernel .panics everyPage 0 0x200000 4096 = some out ∧ Exact everyPage 0 0x200000 4096 out :=
  (copy_exact_iff .panics (by decide)).mpr (Or.inr ⟨by decide, Or.inr ⟨by decide, by decide, by decide⟩⟩) everyPage 0

/-- One byte in a mapped page: the whole page comes back. -/
theorem copy_one_byte_not_exact :
    ¬∃ out, copyBufferToKernel .panics everyPage 0 0x200000 1 = some out ∧ Exact everyPage 0 0x200000 1 out := by
  intro exact
  obtain ⟨_, ⟨i, inside, addr, sum, outside⟩ | ⟨_, whole, _⟩⟩ := whole_pages_of_exact (by decide) (by decide) exact
  · obtain rfl : i = 0 := by omega
    rcases Overflow.fit_cases sum with ⟨rfl, _⟩ | ⟨checked, _⟩
    · exact outside (Or.inl (by decide))
    · cases checked
  · exact absurd whole (by decide)

/-- The frame of an entry that user mode may follow. -/
def userFrame (e : Nat) : Option Nat := if e / 4 % 2 = 1 then pteFrame e else none

/-- The frame of a page that is `USER_ACCESSIBLE` at every level. -/
def userTranslate (m : Mem) (root page : Nat) : Option Nat := Forest.walk userFrame m.entry root (pagePath page)

/-- Two memories that hold the same page table below `root` and agree on every
page that its owner may access. -/
structure SameView (m m' : Mem) (root : Nat) : Prop where
  tables : ∀ p t, p.length ≤ 3 → tableWalk m root p = some t → ∀ i, m'.entry t i = m.entry t i
  pages : ∀ page frame, userTranslate m root page = some frame → ∀ x, x / 4096 = frame → m' x = m x

/-- The address lies on a page that is mapped, but not for user mode. -/
def Supervisor (m : Mem) (root addr : Nat) : Prop :=
  Canonical addr ∧ translate m root (addr / 4096) ≠ none ∧ userTranslate m root (addr / 4096) = none

/-- The copy depends only on what the caller may read, and it rejects a buffer
that touches a page of the supervisor. -/
def Confined (overflow : Overflow) (m : Mem) (root base size : Nat) : Prop :=
  (∀ m', SameView m m' root →
    copyBufferToKernel overflow m' root base size = copyBufferToKernel overflow m root base size) ∧
  ((∃ j, j < size ∧ Supervisor m root ((base + j) % 2 ^ 64)) → copyBufferToKernel overflow m root base size = some none)

/-- The loop comes to a page that is not mapped. -/
def Blocked (overflow : Overflow) (m : Mem) (root base size : Nat) : Prop :=
  ∃ rounded, overflow.fit 64 (size + 0xfff) = some rounded ∧ ∃ l, l < rounded / 2 ^ 12 ∧
    visit overflow m root base l = some none ∧ ∀ l', l' < l → visit overflow m root base l' ≠ none

section Confined
variable {overflow : Overflow} {m m' : Mem} {root base size : Nat}

theorem copy_none_iff :
    copyBufferToKernel overflow m root base size = some none ↔ Blocked overflow m root base size := by
  unfold copyBufferToKernel Blocked
  cases overflow.fit 64 (size + 0xfff) with
  | none => simp
  | some rounded =>
    simp only [copyPages_none_iff, Nat.zero_le, Nat.zero_add, true_and, forall_const, Option.some.injEq,
      exists_eq_left']

theorem SameView.translate (view : SameView m m' root) (page : Nat) :
    translate m' root page = translate m root page := by
  refine Forest.walk_congr fun q j s t split here => congrArg pteFrame (view.tables q t ?_ here j)
  have length := congrArg List.length split
  rw [List.length_append, List.length_cons] at length
  have four : (pagePath page).length = 4 := rfl
  omega

theorem SameView.visit (view : SameView m m' root) (i : Nat) :
    visit overflow m' root base i = visit overflow m root base i := by
  unfold UserCopy.visit
  exact congrArg (fun f => (overflow.fit 64 (base + i * 0x1000)).map f) (funext fun addr => by rw [view.translate])

theorem userTranslate_translate {page frame : Nat} (user : userTranslate m root page = some frame) :
    translate m root page = some frame := by
  refine Forest.walk_mono (fun e t narrow => ?_) user
  unfold userFrame at narrow
  split at narrow
  · exact narrow
  · cases narrow

/-- A visited page of the buffer is the caller's own, if none of the supervisor is touched. -/
theorem frameBytes_same (view : SameView m m' root) {l frame : Nat} (inside : l * 0x1000 < size)
    (free : ∀ j, j < size → ¬Supervisor m root ((base + j) % 2 ^ 64))
    (found : UserCopy.visit overflow m root base l = some (some frame)) : frameBytes m' frame = frameBytes m frame := by
  obtain ⟨addr, sum, mapped⟩ := Option.map_eq_some_iff.mp found
  split at mapped
  · rename_i canonical
    have wrapped : (base + l * 0x1000) % 2 ^ 64 = addr := by
      rcases Overflow.fit_cases sum with ⟨rfl, small⟩ | ⟨_, _, rfl⟩
      · exact Nat.mod_eq_of_lt small
      · rfl
    have touched := free _ inside
    rw [wrapped] at touched
    cases user : userTranslate m root (addr / 4096) with
    | none => exact absurd ⟨canonical, by rw [mapped]; exact Option.some_ne_none _, user⟩ touched
    | some frame' =>
      have same := userTranslate_translate user
      rw [mapped] at same
      cases same
      refine List.map_congr_left fun x bound => view.pages _ frame user _ ?_
      rw [List.mem_range] at bound
      omega
  · cases mapped

end Confined

/-- The copy is confined to what the caller may read exactly if the loop comes
to a page that is not mapped, or no address of the buffer lies on a page of
the supervisor. -/
theorem copy_confined_iff (overflow : Overflow) (m : Mem) (root base size : Nat) :
    Confined overflow m root base size ↔ Blocked overflow m root base size ∨
      ∀ j, j < size → ¬Supervisor m root ((base + j) % 2 ^ 64) := by
  constructor
  · rintro ⟨_, rejects⟩
    refine or_iff_not_imp_left.mpr fun passes j inside touched => passes ?_
    exact copy_none_iff.mp (rejects ⟨j, inside, touched⟩)
  · rintro (blocked | free)
    · have none := copy_none_iff.mpr blocked
      refine ⟨fun m' view => ?_, fun _ => none⟩
      rw [none, copy_none_iff]
      obtain ⟨rounded, sum, l, bound, missing, earlier⟩ := blocked
      refine ⟨rounded, sum, l, bound, (view.visit l).trans missing, fun l' below => ?_⟩
      rw [view.visit]
      exact earlier l' below
    · refine ⟨fun m' view => ?_, fun ⟨j, inside, touched⟩ => absurd touched (free j inside)⟩
      unfold copyBufferToKernel
      cases sum : overflow.fit 64 (size + 0xfff) with
      | none => rfl
      | some rounded =>
        refine copyPages_congr _ 0 [] (fun l _ _ => view.visit l) fun l frame _ upper found => ?_
        refine frameBytes_same view ?_ free found
        rcases Overflow.fit_cases sum with ⟨rounded, _⟩ | ⟨_, _, rounded⟩ <;> omega

/-- The level-4 table of a normal process in frame 7682 with the upper half
as `paging::init` and `create` set it up, down to the first page of the kernel. -/
def kernelView : Mem :=
  (((Mem.setEntry (fun _ => 0) 0x1e02 256 (pte pdptHigh 3)).setEntry pdptHigh 0 (pte 0x104 3)).setEntry 0x104 0
    (pte 0x10a 3)).setEntry 0x10a 0 (pte 0x200 3)

/-- A page at the start of the kernel image is copied to the caller. -/
theorem copy_kernel_page_not_confined : ¬Confined .panics kernelView 0x1e02 0xffff800000000000 4096 := by
  rintro ⟨_, rejects⟩
  have touched : Supervisor kernelView 0x1e02 0xffff800000000000 := by
    unfold Supervisor
    decide +kernel
  obtain ⟨rounded, sum, l, bound, missing, _⟩ := copy_none_iff.mp (rejects ⟨0, by decide, touched⟩)
  cases sum
  obtain rfl : l = 0 := by omega
  have found : visit .panics kernelView 0x1e02 0xffff800000000000 0 = some (some 0x200) := by
    decide +kernel
  rw [found] at missing
  cases missing

end UserCopy

end ProkaKernel
