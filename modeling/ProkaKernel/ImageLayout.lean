import ProkaKernel.KernelSteps
import ProkaKernel.FourLevel

namespace ProkaKernel

def Section.pages (sec : Section) : Nat := divCeil sec.size pageSize

/-- The pages that a list of sections takes. -/
def pageCount (secs : List Section) : Nat := (secs.map Section.pages).sum

/-- The byte that a process on the level-4 table `root` reads at an address. -/
def readByte (m : Mem) (root addr : Nat) : Option UInt8 :=
  (translate m root (addr / 4096)).map fun frame => m (frame * 4096 + addr % 4096)

/-- The sections lie back to back from 0x200000 on, in file order: the pages
of each one are mapped one after the other, a reader finds its bytes there,
and there is no hole before the end of the image. -/
structure ImageLaid (m : Mem) (root : Nat) (data : List UInt8) (secs : List Section) : Prop where
  pages : ∀ before sec after, secs = before ++ sec :: after → ∃ frame, ∀ j, j < sec.pages →
    translate m root (0x200 + (pageCount before + j)) = some (frame + j)
  bytes : ∀ before sec after, secs = before ++ sec :: after → ∀ x, x < sec.size →
    readByte m root (0x200000 + pageCount before * 4096 + x) = data[sec.base + x]?
  mapped : ∀ page, page < pageCount secs → translate m root (0x200 + page) ≠ none

theorem pageCount_split (before : List Section) (sec : Section) (after : List Section) :
    pageCount (before ++ sec :: after) = pageCount before + (sec.pages + pageCount after) := by
  simp only [pageCount, List.map_append, List.map_cons, List.sum_append, List.sum_cons]

theorem pageCount_cons (sec : Section) (after : List Section) :
    pageCount (sec :: after) = sec.pages + pageCount after := by
  simp only [pageCount, List.map_cons, List.sum_cons]

/-- Every page of an image belongs to one of its sections. -/
theorem page_owner {secs : List Section} {page : Nat} (inside : page < pageCount secs) :
    ∃ before sec after j, secs = before ++ sec :: after ∧ j < sec.pages ∧ page = pageCount before + j := by
  induction secs generalizing page with
  | nil => exact absurd inside (Nat.not_lt_zero page)
  | cons first rest ih =>
    by_cases here : page < first.pages
    · exact ⟨[], first, rest, page, rfl, here, (Nat.zero_add page).symm⟩
    · rw [pageCount_cons] at inside
      obtain ⟨before, sec, after, j, rfl, bound, later⟩ := ih (by omega : page - first.pages < pageCount rest)
      exact ⟨first :: before, sec, after, j, rfl, bound, by rw [pageCount_cons]; omega⟩

theorem pages_le_one_iff (sec : Section) : sec.pages ≤ 1 ↔ sec.size ≤ 4096 := by
  unfold Section.pages
  rw [divCeil_page]
  omega

theorem forall₂_split {α β : Type} {rel : α → β → Prop} {before after : List α} {a : α} {bs : List β}
    (all : List.Forall₂ rel (before ++ a :: after) bs) :
    ∃ before' b after', bs = before' ++ b :: after' ∧ List.Forall₂ rel before before' ∧ rel a b := by
  induction before generalizing bs with
  | nil =>
    obtain ⟨b, rest, first, _, rfl⟩ := List.forall₂_cons_left_iff.mp all
    exact ⟨[], b, rest, rfl, .nil, first⟩
  | cons x before ih =>
    obtain ⟨y, rest, first, others, rfl⟩ := List.forall₂_cons_left_iff.mp all
    obtain ⟨before', b, after', rfl, front, here⟩ := ih others
    exact ⟨y :: before', b, after', rfl, .cons first front, here⟩

namespace Kernel

def infoCount (infos : List SectionData) : Nat := (infos.map SectionData.pages).sum

theorem infoCount_cons (info : SectionData) (rest : List SectionData) :
    infoCount (info :: rest) = info.pages + infoCount rest := by
  rw [infoCount, List.map_cons, List.sum_cons]
  rfl

theorem infoCount_eq {data : List UInt8} {m : Mem} {secs : List Section} {infos : List SectionData}
    (loaded : List.Forall₂ (Loaded data m) secs infos) : infoCount infos = pageCount secs := by
  induction loaded with
  | nil => rfl
  | cons first _ ih =>
    rw [infoCount_cons, pageCount_cons, ih, first.pages]
    rfl

section Layout
variable {infos before after : List SectionData} {info : SectionData} {c : Nat} {entry : Nat × Nat}

theorem imageLayout_length (infos : List SectionData) (c : Nat) : (imageLayout infos c).length = infoCount infos := by
  induction infos generalizing c with
  | nil => rfl
  | cons info rest ih => rw [imageLayout, List.length_append, List.length_map, List.length_range', ih, infoCount_cons]

theorem imageLayout_append (before : List SectionData) (info : SectionData) (after : List SectionData) (c : Nat) :
    imageLayout (before ++ info :: after) c = imageLayout before c ++
      ((List.range' 0 info.pages).map (sectionPage (c + infoCount before) (info.addr / 4096)) ++
        imageLayout after (c + infoCount before + info.pages)) := by
  induction before generalizing c with
  | nil => rfl
  | cons first before ih =>
    rw [List.cons_append, imageLayout, imageLayout, ih, infoCount_cons, List.append_assoc, Nat.add_assoc c first.pages]

/-- The pages of a section come after those counted before it. -/
theorem imageLayout_ge (member : entry ∈ imageLayout infos c) : 0x200 + c ≤ entry.1 := by
  induction infos generalizing c with
  | nil => cases member
  | cons info rest ih =>
    rcases List.mem_append.mp member with here | there
    · obtain ⟨j, _, rfl⟩ := List.mem_map.mp here
      unfold sectionPage
      omega
    · have lower := ih there
      omega

/-- As long as no section has a second page, none passes the counter. -/
theorem imageLayout_lt (single : ∀ info ∈ infos, info.pages ≤ 1) (member : entry ∈ imageLayout infos c) :
    entry.1 < 0x200 + (c + infoCount infos) := by
  induction infos generalizing c with
  | nil => cases member
  | cons info rest ih =>
    have count := infoCount_cons info rest
    rcases List.mem_append.mp member with here | there
    · obtain ⟨j, inside, rfl⟩ := List.mem_map.mp here
      have one := single info (List.mem_cons_self ..)
      have bound := (List.mem_range'_1.mp inside).2
      unfold sectionPage
      omega
    · have upper := ih (fun other member => single other (List.mem_cons_of_mem info member)) there
      omega

end Layout

section
variable {data : List UInt8} {secs : List Section} {m : Mem} {root stackBase : Nat} {infos : List SectionData}

theorem Placed.page {before after : List SectionData} {info : SectionData}
    (placed : Placed data secs m root (before ++ info :: after) stackBase) {j : Nat} (inside : j < info.pages) :
    translate m root (0x200 + (infoCount before + j + j)) = some (info.addr / 4096 + j) := by
  have here : sectionPage (infoCount before) (info.addr / 4096) j ∈ layout (before ++ info :: after) stackBase := by
    refine List.mem_append_left _ (List.mem_reverse.mpr ?_)
    rw [imageLayout_append, Nat.zero_add]
    refine List.mem_append_right _ (List.mem_append_left _ (List.mem_map_of_mem ?_))
    exact List.mem_range'_1.mpr ⟨Nat.zero_le j, by omega⟩
  exact (placed.mapped _ _ (placed.low _ here)).mpr here

/-- The second page of the first section that has one leaves a hole before it. -/
theorem Placed.hole {before after : List SectionData} {info : SectionData}
    (placed : Placed data secs m root (before ++ info :: after) stackBase) (single : ∀ info ∈ before, info.pages ≤ 1)
    (several : 2 ≤ info.pages) : translate m root (0x200 + (infoCount before + 1)) = none := by
  have second : (0x200 + (infoCount before + 1 + 1), info.addr / 4096 + 1) ∈
      (imageLayout (before ++ info :: after) 0).reverse := by
    refine List.mem_reverse.mpr ?_
    rw [imageLayout_append, Nat.zero_add]
    refine List.mem_append_right _ (List.mem_append_left _ (List.mem_map.mpr ⟨1, ?_, rfl⟩))
    exact List.mem_range'_1.mpr ⟨Nat.zero_le 1, by omega⟩
  have low := placed.low _ (List.mem_append_left _ second)
  dsimp only at low
  refine Option.eq_none_iff_forall_ne_some.mpr fun f mapped => ?_
  rcases List.mem_append.mp ((placed.mapped _ f (by omega)).mp mapped) with image | stack
  · rw [List.mem_reverse, imageLayout_append, Nat.zero_add] at image
    rcases List.mem_append.mp image with front | rest
    · have upper := imageLayout_lt single front
      dsimp only at upper
      omega
    · rcases List.mem_append.mp rest with own | later
      · obtain ⟨j, _, same⟩ := List.mem_map.mp own
        have page := congrArg Prod.fst same
        simp only [sectionPage] at page
        omega
      · have lower := imageLayout_ge later
        dsimp only at lower
        omega
  · have distinct := placed.distinct
    rw [layout, List.map_append] at distinct
    have apart := (List.nodup_append.mp distinct).2.2 _ (List.mem_map_of_mem second) 0x7ffffffff (by simp [stackLayout])
    simp only [stackLayout, List.mem_cons, Prod.mk.injEq, List.not_mem_nil, or_false] at stack
    dsimp only at apart
    omega

theorem Placed.section_at {before after : List Section} {sec : Section}
    (placed : Placed data secs m root infos stackBase) (split : secs.filter Section.loadable = before ++ sec :: after) :
    ∃ before' info after', infos = before' ++ info :: after' ∧ List.Forall₂ (Loaded data m) before before' ∧
      infoCount before' = pageCount before ∧ info.pages = sec.pages ∧ Loaded data m sec info := by
  obtain ⟨before', info, after', rfl, front, loaded⟩ := forall₂_split (split ▸ placed.loaded)
  exact ⟨before', info, after', rfl, front, infoCount_eq front, loaded.pages, loaded⟩

/-- With sections of one page each, the image is laid out as intended. -/
theorem Placed.laid (placed : Placed data secs m root infos stackBase)
    (single : ∀ sec ∈ secs.filter Section.loadable, sec.pages ≤ 1) :
    ImageLaid m root data (secs.filter Section.loadable) := by
  have first (before after : List Section) (sec : Section)
      (split : secs.filter Section.loadable = before ++ sec :: after) : ∃ info, Loaded data m sec info ∧
        ∀ j, j < sec.pages → j = 0 ∧ translate m root (0x200 + (pageCount before + j)) = some (info.addr / 4096 + j) := by
    obtain ⟨before', info, after', rfl, _, count, pages, loaded⟩ := placed.section_at split
    refine ⟨info, loaded, fun j inside => ?_⟩
    have one := single sec (by rw [split]; exact List.mem_append_right _ (List.mem_cons_self ..))
    obtain rfl : j = 0 := by omega
    have here := placed.page (pages.symm ▸ inside)
    rw [count, Nat.add_zero] at here
    exact ⟨rfl, here⟩
  refine ⟨fun before sec after split => ?_, fun before sec after split x inside => ?_, fun page inside => ?_⟩
  · obtain ⟨info, _, pages⟩ := first before after sec split
    exact ⟨info.addr / 4096, fun j bound => (pages j bound).2⟩
  · obtain ⟨info, loaded, pages⟩ := first before after sec split
    have size := divCeil_page sec.size
    have one := (pages_le_one_iff sec).mp
      (single sec (by rw [split]; exact List.mem_append_right _ (List.mem_cons_self ..)))
    have translated := (pages 0 (by unfold Section.pages; omega)).2
    have page : (0x200000 + pageCount before * 4096 + x) / 4096 = 0x200 + (pageCount before + 0) := by omega
    have offset : (0x200000 + pageCount before * 4096 + x) % 4096 = x := by omega
    have aligned := loaded.aligned
    have start : (info.addr / 4096 + 0) * 4096 = info.addr := by omega
    have inData := loaded.inside
    rw [readByte, page, translated, Option.map_some, offset, start, loaded.bytes x inside,
      List.getElem?_eq_getElem (by omega), List.getD_eq_getElem _ _ (by omega)]
  · obtain ⟨before, sec, after, j, split, bound, rfl⟩ := page_owner inside
    obtain ⟨info, _, pages⟩ := first before after sec split
    rw [(pages j bound).2]
    exact Option.some_ne_none _

/-- An image with a hole is not laid out. -/
theorem Placed.single (placed : Placed data secs m root infos stackBase)
    (laid : ImageLaid m root data (secs.filter Section.loadable)) :
    ∀ sec ∈ secs.filter Section.loadable, sec.pages ≤ 1 := by
  by_contra several
  cases found : (secs.filter Section.loadable).find? fun sec => decide (2 ≤ sec.pages) with
  | none =>
    refine several fun sec member => ?_
    have small := List.find?_eq_none.mp found sec member
    simp only [decide_eq_true_eq] at small
    omega
  | some sec =>
    obtain ⟨large, before, after, split, earlier⟩ := List.find?_eq_some_iff_append.mp found
    obtain ⟨before', info, after', rfl, front, count, pages, _⟩ := placed.section_at split
    have many : 2 ≤ sec.pages := decide_eq_true_iff.mp large
    have ones (other : SectionData) (member : other ∈ before') : other.pages ≤ 1 := by
      obtain ⟨i, bound, rfl⟩ := List.mem_iff_getElem.mp member
      have loaded := (List.forall₂_iff_get.mp front).2 i (front.length_eq ▸ bound) bound
      have small := earlier (before.get ⟨i, front.length_eq ▸ bound⟩) (List.get_mem ..)
      simp only [Bool.not_eq_true', decide_eq_false_iff_not] at small
      have same := loaded.pages
      change before'[i].pages = (before.get _).pages at same
      omega
    have total := pageCount_split before sec after
    refine laid.mapped (pageCount before + 1) (by rw [split]; omega) ?_
    exact count ▸ placed.hole ones (pages ▸ many)

end

/-- The level-4 table of the process created last, which is at the end of its
queue. -/
def newestTable (k : Kernel) (typ : ProcType) : Nat :=
  (k.sched.slot typ ((k.sched.queue typ).getLast?.getD 0)).tableAddr / 4096

theorem newestTable_created {s : Sched} {k : Kernel} {typ : ProcType} {id root : Nat}
    (created : Created s k.sched typ id (root * 4096)) : k.newestTable typ = root := by
  unfold newestTable
  rw [created.queue, List.getLast?_concat, Option.getD_some, created.slot]
  exact Nat.mul_div_cancel root (by decide)

theorem Spawned.newest {R : Set Nat} {data : List UInt8} {image : Image} {root id stackBase : Nat}
    {infos : List SectionData} {k k' : Kernel} (spawned : Spawned R data image root id infos stackBase k k') :
    k'.newestTable image.procType = root :=
  newestTable_created spawned.created

/-- A successful `create` lays the image out back to back exactly if no
loadable section is longer than a page. -/
theorem image_laid_iff (mapper : PageMapper) (parse : List UInt8 → Option Image) {map : MemoryMap}
    {start k k' : Kernel} {tables : Set Nat} {data : List UInt8} {priority : Nat} {image : Image}
    (boot : start.Boot map) (reach : Reach mapper parse start k tables) (parsed : parse data = some image)
    (run : create mapper parse data priority k = some (.ok (), k')) :
    ImageLaid k'.mem (k'.newestTable image.procType) data (image.sections.filter Section.loadable) ↔
      ∀ sec ∈ image.sections, sec.loadable = true → sec.size ≤ 4096 := by
  obtain ⟨R, valid, _⟩ := reach.valid mapper parse boot
  obtain ⟨_, root, id, infos, stackBase, same, spawned⟩ := (create_wp mapper parse data priority valid.stage).ok run
  cases Option.some.inj (parsed.symm.trans same)
  have placed := spawned.placed
  rw [spawned.newest]
  refine ⟨fun laid sec member loadable => ?_, fun small => placed.laid fun sec member => ?_⟩
  · exact (pages_le_one_iff sec).mp (placed.single laid sec (List.mem_filter.mpr ⟨member, loadable⟩))
  · obtain ⟨member, loadable⟩ := List.mem_filter.mp member
    exact (pages_le_one_iff sec).mpr (small sec member loadable)

/-- One byte of code fills one page, and the process finds it at 0x200000. -/
theorem image_laid_one_byte :
    ∃ k', create FourLevel.mapper flatParse [0x90] 0 smallKernel = some (.ok (), k') ∧
      ImageLaid k'.mem (k'.newestTable .normal) [0x90] [⟨0, 1, true, true⟩] := by
  have run : ((create FourLevel.mapper flatParse [0x90] 0 smallKernel).map fun out => out.1.isOk) = some true := by
    decide +kernel
  obtain ⟨⟨result, k'⟩, out, ok⟩ := Option.map_eq_some_iff.mp run
  cases result with
  | error e => cases ok
  | ok done =>
    refine ⟨k', out, (image_laid_iff FourLevel.mapper flatParse smallKernel_boot .boot rfl out).mpr ?_⟩
    intro sec member _
    cases List.mem_singleton.mp member
    decide

section Loading
open Prog
variable {data : List UInt8} {k k' : Kernel}

theorem loadSection_ok {bytes : List UInt8} {f : Nat} {a : FrameAlloc} (sec : Section)
    (taken : k.alloc.allocateContiguous (divCeil sec.size pageSize) = some (f, a))
    (sliced : slice data sec.base sec.size = some bytes) :
    loadSection data sec k = some (.ok ⟨f * 4096, divCeil sec.size pageSize, sec.execable⟩,
      { k with alloc := a, mem := k.mem.copy (f * 4096) bytes }) := by
  have found : (allocateContiguous (divCeil sec.size pageSize) : Prog Kernel Error (Option Nat)) k =
      some (.ok (some f), { k with alloc := a }) := by
    unfold allocateContiguous
    rw [taken]
  unfold loadSection
  rw [bind_ok (bind_ok found), sliced]
  rfl

/-- An executable with a single section, after that section has been loaded. -/
theorem create_loaded {mapper : PageMapper} {parse : List UInt8 → Option Image} {priority : Nat} {drv : Bool}
    {sec : Section} {info : SectionData} (parsed : parse data = some ⟨true, drv, [sec]⟩) (loadable : sec.loadable = true)
    (load : loadSection data sec k = some (.ok info, k')) :
    create mapper parse data priority k =
      (makeSpace mapper (Image.procType ⟨true, drv, [sec]⟩) [info] >>= fun pml4 =>
        enroll (Image.procType ⟨true, drv, [sec]⟩) pml4 priority) k' := by
  have loads : loadSections data [sec] k = some (.ok [info], k') := by
    rw [loadSections, if_pos loadable, bind_ok load]
    rfl
  unfold create
  rw [parsed, bind_ok rfl, if_pos rfl, bind_ok loads]

end Loading

/-- The small machine after two frames have been filled. -/
def twoPageKernel : Kernel where
  mem x := if 0x1e01 * 4096 ≤ x ∧ x < 0x1e01 * 4096 + 4097 then 0x90 else 0
  alloc := { smallAlloc with bitmap := List.replicate 960 255 ++ 7 :: List.replicate 63 0, pos := 0x1e03 }

theorem load_two_pages :
    loadSection (List.replicate 4097 0x90) ⟨0, 4097, true, true⟩ smallKernel =
      some (.ok ⟨0x1e01 * 4096, 2, true⟩, twoPageKernel) := by
  have taken : smallAlloc.allocateContiguous (divCeil 4097 pageSize) = some (0x1e01, twoPageKernel.alloc) := by
    decide +kernel
  have sliced : slice (List.replicate 4097 0x90) 0 4097 = some (List.replicate 4097 0x90) := by
    rw [slice, if_pos (by rw [List.length_replicate]), List.drop_zero, List.take_replicate, Nat.min_self]
  have copied : smallKernel.mem.copy (0x1e01 * 4096) (List.replicate 4097 0x90) = twoPageKernel.mem := by
    funext x
    unfold Mem.copy twoPageKernel smallKernel
    rw [List.length_replicate]
    dsimp only
    split
    · rw [List.getD_replicate _ (by omega)]
    · rfl
  have pages : divCeil 4097 pageSize = 2 := by decide
  rw [loadSection_ok (k := smallKernel) ⟨0, 4097, true, true⟩ taken sliced, pages, copied]
  rfl

/-- Two pages of code: the second one is mapped one page too high, and the
process faults at 0x201000. -/
theorem image_hole_two_pages :
    ∃ k', create FourLevel.mapper flatParse (List.replicate 4097 0x90) 0 smallKernel = some (.ok (), k') ∧
      ¬ImageLaid k'.mem (k'.newestTable .normal) (List.replicate 4097 0x90) [⟨0, 4097, true, true⟩] := by
  have parsed : flatParse (List.replicate 4097 0x90) = some ⟨true, false, [⟨0, 4097, true, true⟩]⟩ := by
    rw [flatParse, List.length_replicate]
    rfl
  have run : (((makeSpace FourLevel.mapper .normal [⟨0x1e01 * 4096, 2, true⟩] >>= fun pml4 =>
      enroll .normal pml4 0) twoPageKernel).map fun out =>
        [some out.1.isOk.toNat, some (out.2.newestTable .normal), translate out.2.mem 0x1e03 0x200,
          translate out.2.mem 0x1e03 0x201, translate out.2.mem 0x1e03 0x202]) =
      some [some 1, some 0x1e03, some 0x1e01, none, some 0x1e02] := by
    decide +kernel
  obtain ⟨⟨result, k'⟩, out, same⟩ := Option.map_eq_some_iff.mp run
  simp only [List.cons.injEq, Option.some.injEq, and_true] at same
  obtain ⟨ok, table, _, hole, _⟩ := same
  cases result with
  | error e => cases ok
  | ok done =>
    refine ⟨k', (create_loaded parsed rfl load_two_pages).trans out, fun laid => laid.mapped 1 (by decide) ?_⟩
    rw [table]
    exact hole

end Kernel

end ProkaKernel
