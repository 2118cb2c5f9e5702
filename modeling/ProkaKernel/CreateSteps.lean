import ProkaKernel.Stages

namespace ProkaKernel

section
variable {s : Sched} {R D : Set Nat} {pend : List Nat} {k : Kernel} {content : Mem} {root : Nat}

/-- Frames that hold data: they are in use, none of them is a table, and
their bytes are those of `content`. -/
structure Data (k : Kernel) (R D : Set Nat) (content : Mem) : Prop where
  used : ∀ f ∈ D, FrameAlloc.Used k.alloc.bitmap f
  apart : ∀ f ∈ D, ∀ r ∈ R, ∀ p, LowPath p → p.length ≤ 3 → tableWalk k.mem r p ≠ some f
  bytes : ∀ x, x / 4096 ∈ D → k.mem x = content x

theorem Stage.data (stage : Stage s R pend k) (members : ∀ f ∈ D, f ∈ pend) : Data k R D k.mem where
  used f member := (stage.owns.spaces.pending f (members f member)).1.1
  apart f member r root p low _ reached :=
    (stage.owns.spaces.pending f (members f member)).2 ⟨r, p, root, low, reached⟩
  bytes _ _ := rfl

theorem Mapped.data {page frame : Nat} {m' : Mem} {a' : FrameAlloc} {pend : Set Nat}
    (mapped : Mapped root page frame R pend k.mem k.alloc m' a') (member : root ∈ R) (data : Data k R D content) :
    Data { k with mem := m', alloc := a' } R D content where
  used f here := mapped.used f (data.used f here)
  apart f here r root' p low short reached :=
    data.apart f here r root' p low short (mapped.tables r p f root' low short reached (data.used f here))
  bytes x here := (mapped.bytes _ (data.used _ here) (data.apart _ here root member) x rfl).trans (data.bytes x here)

/-- The address space below `root` under construction: exactly the pages of
the list are mapped, each of them once. -/
structure Mapping (s : Sched) (R D : Set Nat) (content : Mem) (root : Nat) (pend : List Nat)
    (pages : List (Nat × Nat)) (k : Kernel) : Prop where
  stage : Stage s R pend k
  member : root ∈ R
  mapped : ∀ page f, page < 2 ^ 35 → (translate k.mem root page = some f ↔ (page, f) ∈ pages)
  distinct : (pages.map Prod.fst).Nodup
  low : ∀ entry ∈ pages, entry.1 < 2 ^ 35
  data : Data k R D content

end

def SectionData.frames (info : SectionData) : List Nat := List.range' (info.addr / 4096) info.pages

/-- The section's bytes lie at the start of the frames taken for it. -/
structure Loaded (data : List UInt8) (m : Mem) (sec : Section) (info : SectionData) : Prop where
  aligned : info.addr % 4096 = 0
  pages : info.pages = divCeil sec.size pageSize
  inside : sec.base + sec.size ≤ data.length
  bytes : ∀ x, x < sec.size → m (info.addr + x) = data.getD (sec.base + x) 0

theorem Loaded.frame {data : List UInt8} {m : Mem} {sec : Section} {info : SectionData}
    (loaded : Loaded data m sec info) {x : Nat} (bound : x < sec.size) : (info.addr + x) / 4096 ∈ info.frames := by
  have aligned := loaded.aligned
  have pages := loaded.pages
  rw [divCeil_page] at pages
  exact List.mem_range'_1.mpr ⟨by omega, by omega⟩

theorem Loaded.congr {data : List UInt8} {m m' : Mem} {sec : Section} {info : SectionData}
    (loaded : Loaded data m sec info) (same : ∀ x, x / 4096 ∈ info.frames → m' x = m x) :
    Loaded data m' sec info where
  aligned := loaded.aligned
  pages := loaded.pages
  inside := loaded.inside
  bytes x bound := (same _ (loaded.frame bound)).trans (loaded.bytes x bound)

theorem Loaded.congr_all {data : List UInt8} {m m' : Mem} {secs : List Section} {infos : List SectionData}
    (loaded : List.Forall₂ (Loaded data m) secs infos)
    (same : ∀ x, x / 4096 ∈ infos.flatMap SectionData.frames → m' x = m x) :
    List.Forall₂ (Loaded data m') secs infos := by
  induction loaded with
  | nil => exact .nil
  | cons first _ ih =>
    rw [List.flatMap_cons] at same
    exact .cons (first.congr fun x here => same x (List.mem_append_left _ here))
      (ih fun x here => same x (List.mem_append_right _ here))

namespace Kernel
open Prog

variable {back : Prop} {c : Snapshot} {s : Sched} {R : Set Nat} {pend : List Nat} {k : Kernel}

theorem slice_getD {data bytes : List UInt8} {base size : Nat} (run : slice data base size = some bytes) :
    base + size ≤ data.length ∧ bytes.length = size ∧ ∀ x, x < size → bytes.getD x 0 = data.getD (base + x) 0 := by
  unfold slice at run
  split at run
  · rename_i inside
    cases run
    refine ⟨inside, by rw [List.length_take, List.length_drop]; omega, fun x bound => ?_⟩
    rw [List.getD_eq_getElem?_getD, List.getD_eq_getElem?_getD, List.getElem?_take_of_lt bound, List.getElem?_drop]
  · cases run

/-- A section is copied into frames that were taken for it. -/
theorem copied_loaded {data bytes : List UInt8} {sec : Section} {f : Nat} (trail : Trail back c s R pend k)
    (taken : ∀ g ∈ List.range' f (divCeil sec.size pageSize), g ∈ pend)
    (sliced : slice data sec.base sec.size = some bytes) :
    Trail back c s R pend { k with mem := k.mem.copy (f * 4096) bytes } ∧
      Loaded data (k.mem.copy (f * 4096) bytes) sec ⟨f * 4096, divCeil sec.size pageSize, sec.execable⟩ ∧
      ∀ x, ¬(f * 4096 ≤ x ∧ x < f * 4096 + sec.size) → k.mem.copy (f * 4096) bytes x = k.mem x := by
  obtain ⟨inside, length, same⟩ := slice_getD sliced
  have pages := divCeil_page sec.size
  refine ⟨trail.edit fun x outside => Mem.copy_outside _ _ fun copied => outside (taken _ ?_),
    ⟨Nat.mul_mod_left f 4096, rfl, inside, fun x bound => ?_⟩, fun x outside => ?_⟩
  · exact List.mem_range'_1.mpr ⟨by omega, by omega⟩
  · exact (Mem.copy_inside _ _ _ (by omega)).trans (same x bound)
  · exact Mem.copy_outside _ _ (length.symm ▸ outside)

theorem loadSection_wp (data : List UInt8) (sec : Section) (trail : Trail back c s R pend k) :
    wp (loadSection data sec) (fun info k' => Trail back c s R (pend ++ info.frames) k' ∧ Loaded data k'.mem sec info ∧
      ∀ x, ¬(info.addr ≤ x ∧ x < info.addr + sec.size) → k'.mem x = k.mem x)
      (fun _ k' => Trail back c s R [] k') k := by
  refine wp_bind (wp_allocate_orFail (fun _ => trail.forget) fun f a run => ?_)
  refine wp_bind (wp_unwrap fun bytes sliced => wp_bind (wp_write (wp_pure ?_)))
  obtain ⟨edited, loaded, outside⟩ :=
    copied_loaded (trail.allocate run) (fun _ => List.mem_append_left pend) sliced
  refine ⟨?_, loaded, outside⟩
  unfold SectionData.frames
  rw [show f * 4096 / 4096 = f from Nat.mul_div_cancel f (by decide)]
  exact edited.perm List.perm_append_comm

/-- The bytes of a section lie in frames that were not taken before it. -/
theorem loaded_apart {data : List UInt8} {m : Mem} {sec : Section} {info : SectionData}
    (stage : Stage s R (pend ++ info.frames) k) (loaded : Loaded data m sec info) {x : Nat} (old : x / 4096 ∈ pend) :
    ¬(info.addr ≤ x ∧ x < info.addr + sec.size) := by
  rintro ⟨lower, upper⟩
  obtain ⟨y, rfl⟩ := Nat.exists_eq_add_of_le lower
  exact (List.nodup_append.mp stage.nodup).2.2 _ old _ (loaded.frame (by omega)) rfl

theorem loadSections_wp (data : List UInt8) (secs : List Section) (trail : Trail back c s R pend k) :
    wp (loadSections data secs) (fun infos k' => Trail back c s R (pend ++ infos.flatMap SectionData.frames) k' ∧
      List.Forall₂ (Loaded data k'.mem) (secs.filter Section.loadable) infos ∧
      ∀ x, x / 4096 ∈ pend → k'.mem x = k.mem x)
      (fun _ k' => Trail back c s R [] k') k := by
  induction secs generalizing pend k with
  | nil => exact wp_pure ⟨(List.append_nil pend).symm ▸ trail, .nil, fun _ _ => rfl⟩
  | cons sec rest ih =>
    unfold loadSections
    split
    · rename_i loadable
      refine wp_bind ((loadSection_wp data sec trail).mono ?_ fun _ _ => id)
      rintro info k1 ⟨trail1, loaded, untouched1⟩
      refine wp_bind ((ih trail1).mono ?_ fun _ _ => id)
      rintro infos k2 ⟨trail2, loadeds, kept2⟩
      rw [List.filter_cons_of_pos loadable]
      refine wp_pure ⟨?_, ?_, fun x old => ?_⟩
      · rw [List.flatMap_cons, ← List.append_assoc]
        exact trail2
      · exact .cons (loaded.congr fun x here => kept2 x (List.mem_append_right _ here)) loadeds
      · exact (kept2 x (List.mem_append_left _ old)).trans (untouched1 x (loaded_apart trail1.stage loaded old))
    · rename_i skipped
      rw [List.filter_cons_of_neg skipped]
      exact ih trail

/-- The level-3 table of the upper half for a kind of process. -/
def upperTable (typ : ProcType) : Nat := if typ = .driver then pdptHproc else pdptHigh

/-- The upper half of an address space holds at most the table for its kind
of process. -/
def UpperHalf (typ : ProcType) (m : Mem) (root : Nat) : Prop :=
  ∀ j : Fin 512, 256 ≤ j.val → m.entry root j = 0 ∨
    (j = 256 ∧ m.entry root j = pte (upperTable typ) (PageFlags.present ||| PageFlags.writable))

theorem UpperHalf.edits {device : Prop} {c' : Snapshot} {typ : ProcType} {root : Nat} (edits : Edits back device c c')
    (owned : c.Owned) (member : root ∈ c.roots) (upper : UpperHalf typ c.mem root) : UpperHalf typ c'.mem root := by
  intro j high
  rcases edits.protected_entry owned (Or.inr ⟨member, high⟩) with same | ⟨_, zero⟩
  · rw [same]
    exact upper j high
  · exact Or.inl zero

theorem upperTable_shared (typ : ProcType) : Shared (upperTable typ) := by
  cases typ
  · exact Or.inl rfl
  · exact Or.inr rfl

theorem makePml4_wp (typ : ProcType) (trail : Trail back c s R pend k) :
    wp (makePml4 typ) (fun root k' => Trail back c s (insert root R) pend k' ∧ root ∉ R ∧
      (∀ page, page < 2 ^ 35 → translate k'.mem root page = none) ∧
      (∀ x, x / 4096 ≠ root → k'.mem x = k.mem x) ∧ ¬FrameAlloc.Used k.alloc.bitmap root ∧
      (∀ q, FrameAlloc.Used k.alloc.bitmap q → FrameAlloc.Used k'.alloc.bitmap q) ∧
      UpperHalf typ k'.mem root)
      (fun _ k' => Trail back c s R [] k') k := by
  refine wp_bind (wp_allocate_orFail (fun _ => trail.forget) fun root a run => wp_bind (wp_write (wp_pure ?_)))
  have taken : Trail back c s R (root :: pend) { k with alloc := a } := trail.allocate run
  have shared := upperTable_shared typ
  have ok : PageFlags.Ok (PageFlags.present ||| PageFlags.writable) := by decide
  obtain ⟨_, fresh, empty⟩ := taken.stage.plant shared ok
  have hands := trail.stage.owns.guarded.hands run
  have unused := hands.fresh root (Nat.le_refl root) (Nat.lt_succ_self root)
  refine ⟨taken.plant shared, fresh, empty, fun x other => ?_, unused, fun q used => ?_, fun j _ => ?_⟩
  · exact (Mem.setEntry_of_ne _ _ _ other).trans (Mem.zeroFrame_of_ne _ other)
  · exact (hands.used q).mpr (Or.inl used)
  · by_cases first : j = 256
    · exact Or.inr ⟨first, first ▸ Mem.entry_setEntry_self _ _ _ (pte_lt shared.lt ok)⟩
    · exact Or.inl (entry_root_self _ _ _ first)

section Mapping
variable {D : Set Nat} {content : Mem} {root f page flags : Nat} {pages : List (Nat × Nat)} (mapper : PageMapper)

/-- An address space under construction, with the edits that led to it. -/
abbrev Built (back : Prop) (c : Snapshot) (s : Sched) (R D : Set Nat) (content : Mem) (root : Nat) (pend : List Nat)
    (pages : List (Nat × Nat)) (k : Kernel) : Prop :=
  Mapping s R D content root pend pages k ∧ Edits back False c (k.snapshot R pend)

theorem mapOrFail_wp (built : Built back c s R D content root (f :: pend) pages k) (bound : page < 2 ^ 35)
    (leaf : LeafFlags flags) :
    wp (mapOrFail mapper root page f flags)
      (fun _ k' => Built back c s R D content root pend ((page, f) :: pages) k')
      (fun _ k' => Trail back c s R [] k') k := by
  obtain ⟨mapping, edits⟩ := built
  have trail : Trail back c s R (f :: pend) k := ⟨mapping.stage, edits⟩
  refine wp_bind (wp_mapTo mapper fun done m a run => ?_)
  cases done with
  | false => exact wp_fail (trail.mapTo_refused mapping.member bound leaf.ok run).forget
  | true =>
    refine wp_pure ?_
    obtain ⟨mapped, trail'⟩ := trail.mapTo mapping.member bound leaf run
    refine ⟨⟨trail'.stage, mapping.member, fun page' g bound' => ?_, List.nodup_cons.mpr ⟨fun again => ?_, mapping.distinct⟩,
      fun entry member => ?_, mapped.data mapping.member mapping.data⟩, trail'.edits⟩
    · rw [mapped.pages root page' g mapping.member bound', mapping.mapped page' g bound', List.mem_cons, Prod.mk.injEq,
        or_comm, and_iff_right rfl]
    · obtain ⟨⟨_, g⟩, member, rfl⟩ := List.mem_map.mp again
      have twice := (mapping.mapped _ g bound).mpr member
      rw [mapped.free] at twice
      cases twice
    · rcases List.mem_cons.mp member with rfl | old
      · exact bound
      · exact mapping.low entry old

theorem stackFlags_leaf (typ : ProcType) : LeafFlags (stackFlags typ) := Or.inl ⟨typ, rfl⟩

theorem sectionFlags_leaf (typ : ProcType) (executable : Bool) : LeafFlags (sectionFlags typ executable) :=
  Or.inr (Or.inl ⟨typ, executable, rfl⟩)

/-- The two stack pages, last mapped first. -/
def stackLayout (stackBase : Nat) : List (Nat × Nat) := [(0x7ffffffff, stackBase + 1), (0x7fffffffe, stackBase)]

theorem mapStack_wp {stackBase : Nat} (typ : ProcType)
    (built : Built back c s R D content root (stackBase :: (stackBase + 1) :: pend) [] k) :
    wp (mapStack mapper typ root (stackBase * 4096) stackPages 0)
      (fun _ k' => Built back c s R D content root pend (stackLayout stackBase) k')
      (fun _ k' => Trail back c s R [] k') k := by
  have frame (i : Nat) : (i * 0x1000 + stackBase * 4096) / 4096 = stackBase + i := by omega
  refine wp_bind (wp_pageAt fun bound => wp_bind ?_)
  rw [frame]
  refine (mapOrFail_wp mapper built bound (stackFlags_leaf typ)).mono (fun _ k1 built1 => ?_) fun _ _ => id
  refine wp_bind (wp_pageAt fun bound => wp_bind ?_)
  rw [frame]
  exact (mapOrFail_wp mapper built1 bound (stackFlags_leaf typ)).mono (fun _ _ built2 => wp_pure built2) fun _ _ => id

/-- Where the loop puts page `j` of a section whose first page comes when
`c` pages have been counted: the counter and the index both advance. -/
def sectionPage (c base j : Nat) : Nat × Nat := (0x200 + (c + j + j), base + j)

theorem mapSection_wp (typ : ProcType) (info : SectionData) (n left i : Nat)
    (built : Built back c s R D content root (List.range' (info.addr / 4096 + i) left ++ pend) pages k) :
    wp (mapSection mapper typ root info left i (n + i))
      (fun n' k' => n' = n + (i + left) ∧ Built back c s R D content root pend
        (((List.range' i left).map (sectionPage n (info.addr / 4096))).reverse ++ pages) k')
      (fun _ k' => Trail back c s R [] k') k := by
  induction left generalizing i pages k with
  | zero => exact wp_pure ⟨rfl, built⟩
  | succ left ih =>
    have page : (0x200000 + (n + i + i) * 0x1000) / 4096 = 0x200 + (n + i + i) := by omega
    have frame : (info.addr + i * 0x1000) / 4096 = info.addr / 4096 + i := by omega
    refine wp_bind (wp_pageAt fun bound => wp_bind ?_)
    rw [frame, page]
    refine (mapOrFail_wp mapper built (page ▸ bound) (sectionFlags_leaf typ info.executable)).mono
      (fun _ k1 built1 => ?_) fun _ _ => id
    refine (ih (i + 1) built1).mono (fun n' k2 => ?_) fun _ _ => id
    rintro ⟨rfl, built2⟩
    refine ⟨by omega, ?_⟩
    rw [List.range'_succ, List.map_cons, List.reverse_cons, List.append_assoc]
    exact built2

/-- The pages of all sections in the order in which they are mapped. -/
def imageLayout : List SectionData → Nat → List (Nat × Nat)
  | [], _ => []
  | info :: rest, c =>
    (List.range' 0 info.pages).map (sectionPage c (info.addr / 4096)) ++ imageLayout rest (c + info.pages)

theorem mapSections_wp (typ : ProcType) (infos : List SectionData) (n : Nat)
    (built : Built back c s R D content root (infos.flatMap SectionData.frames) pages k) :
    wp (mapSections mapper typ root infos n)
      (fun _ k' => Built back c s R D content root [] ((imageLayout infos n).reverse ++ pages) k')
      (fun _ k' => Trail back c s R [] k') k := by
  induction infos generalizing n pages k with
  | nil => exact wp_pure built
  | cons info rest ih =>
    refine wp_bind ((mapSection_wp mapper typ info n info.pages 0 built).mono (fun n' k1 => ?_) fun _ _ => id)
    rintro ⟨rfl, built1⟩
    rw [Nat.zero_add]
    refine (ih (n + info.pages) built1).mono (fun _ k2 built2 => ?_) fun _ _ => id
    rw [imageLayout, List.reverse_append, List.append_assoc]
    exact built2

end Mapping

/-- The pages of a new address space, last mapped first. -/
def layout (infos : List SectionData) (stackBase : Nat) : List (Nat × Nat) :=
  (imageLayout infos 0).reverse ++ stackLayout stackBase

/-- The frames hold the sections, and exactly the pages of the layout are
mapped. -/
structure Placed (data : List UInt8) (secs : List Section) (m : Mem) (root : Nat) (infos : List SectionData)
    (stackBase : Nat) : Prop where
  loaded : List.Forall₂ (Loaded data m) (secs.filter Section.loadable) infos
  mapped : ∀ page f, page < 2 ^ 35 → (translate m root page = some f ↔ (page, f) ∈ layout infos stackBase)
  distinct : ((layout infos stackBase).map Prod.fst).Nodup
  low : ∀ entry ∈ layout infos stackBase, entry.1 < 2 ^ 35

/-- The frames of the sections and of the stack. -/
def dataFrames (infos : List SectionData) (stackBase : Nat) : List Nat :=
  stackBase :: (stackBase + 1) :: infos.flatMap SectionData.frames

/-- A new address space: its frames were free before, and its upper half holds
the kernel's table at most. -/
structure NewSpace (data : List UInt8) (secs : List Section) (infos : List SectionData) (typ : ProcType) (R : Set Nat)
    (k : Kernel) (root stackBase : Nat) (k' : Kernel) : Prop where
  fresh : root ∉ R
  unused : ∀ f ∈ [root, stackBase, stackBase + 1], ¬FrameAlloc.Used k.alloc.bitmap f
  placed : Placed data secs k'.mem root infos stackBase
  upper : UpperHalf typ k'.mem root

/-- The stack and the sections are mapped below an empty level-4 table. -/
theorem fillSpace_wp (mapper : PageMapper) (typ : ProcType) {infos : List SectionData} {root : Nat}
    (trail : Trail back c s R (infos.flatMap SectionData.frames) k) (member : root ∈ R)
    (empty : ∀ page, page < 2 ^ 35 → translate k.mem root page = none) :
    wp (do
        let stackBase ← allocateContiguous stackPages >>= Prog.orFail .memoryNotEnough
        mapStack mapper typ root (stackBase * 4096) stackPages 0
        mapSections mapper typ root infos 0
        pure root)
      (fun r k' => r = root ∧ ∃ stackBase, ¬FrameAlloc.Used k.alloc.bitmap stackBase ∧
        ¬FrameAlloc.Used k.alloc.bitmap (stackBase + 1) ∧ root ∉ dataFrames infos stackBase ∧
        Built back c s R { f | f ∈ dataFrames infos stackBase } k.mem root [] (layout infos stackBase) k')
      (fun _ k' => Trail back c s R [] k') k := by
  refine wp_bind (wp_allocate_orFail (fun _ => trail.forget) fun stackBase a run => ?_)
  have hands := trail.stage.owns.guarded.hands run
  have taken : Trail back c s R (dataFrames infos stackBase) { k with alloc := a } := trail.allocate run
  have mapping : Mapping s R { f | f ∈ dataFrames infos stackBase } k.mem root (dataFrames infos stackBase) []
      { k with alloc := a } := by
    refine ⟨taken.stage, member, fun page f bound => ?_, List.nodup_nil,
      fun _ none => absurd none List.not_mem_nil, taken.stage.data fun _ => id⟩
    rw [empty page bound]
    exact iff_of_false (fun none => nomatch none) List.not_mem_nil
  refine wp_bind ((mapStack_wp mapper typ ⟨mapping, taken.edits⟩).mono (fun _ k2 built2 => ?_) fun _ _ => id)
  refine wp_bind ((mapSections_wp mapper typ infos 0 built2).mono (fun _ k3 built3 => wp_pure ?_) fun _ _ => id)
  exact ⟨rfl, stackBase, hands.fresh _ (Nat.le_refl _) (Nat.lt_add_of_pos_right (by decide)),
    hands.fresh _ (Nat.le_succ _) (Nat.lt_succ_self _), fun pending => taken.stage.owns.unrooted pending member, built3⟩

theorem makeSpace_wp (mapper : PageMapper) (typ : ProcType) {data : List UInt8} {secs : List Section}
    {infos : List SectionData} (trail : Trail back c s R (infos.flatMap SectionData.frames) k)
    (loaded : List.Forall₂ (Loaded data k.mem) (secs.filter Section.loadable) infos) :
    wp (makeSpace mapper typ infos) (fun root k' => Trail back c s (insert root R) [] k' ∧
        ∃ stackBase, NewSpace data secs infos typ R k root stackBase k')
      (fun _ k' => ∃ R', R ⊆ R' ∧ Trail back c s R' [] k') k := by
  refine wp_bind ((makePml4_wp typ trail).mono ?_ fun _ k' failed => ⟨R, fun _ => id, failed⟩)
  rintro root k1 ⟨trail1, fresh, empty, kept, unused, used, upper⟩
  have start : Trail back (k1.snapshot (insert root R) (infos.flatMap SectionData.frames)) s (insert root R)
      (infos.flatMap SectionData.frames) k1 := trail1.stage.trail
  refine (fillSpace_wp mapper typ start (Set.mem_insert root R) empty).mono ?_
    fun _ k' late => ⟨insert root R, Set.subset_insert root R, late.prepend trail1.edits⟩
  rintro _ k' ⟨rfl, stackBase, free, next, apart, mapping, edits⟩
  have same (x : Nat) (here : x / 4096 ∈ dataFrames infos stackBase) : k'.mem x = k.mem x := by
    refine (mapping.data.bytes x here).trans (kept x ?_)
    rintro rfl
    exact apart here
  have ended : Trail back _ s (insert _ R) [] k' := ⟨mapping.stage, edits⟩
  have shared := upper.edits edits trail1.stage.owns (Set.mem_insert _ R)
  refine ⟨ended.prepend trail1.edits, stackBase, fresh, fun f member before => ?_,
    ⟨Loaded.congr_all loaded fun x here => same x ?_, mapping.mapped, mapping.distinct, mapping.low⟩, shared⟩
  · simp only [List.mem_cons, List.not_mem_nil, or_false] at member
    rcases member with rfl | rfl | rfl
    · exact unused before
    · exact free (used _ before)
    · exact next (used _ before)
  · exact List.mem_cons_of_mem _ (List.mem_cons_of_mem _ here)

end Kernel

end ProkaKernel
