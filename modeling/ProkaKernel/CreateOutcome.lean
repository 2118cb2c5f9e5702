import ProkaKernel.HeapRollback
import ProkaKernel.TaskSound

namespace ProkaKernel

/-- How some requests for frames end. -/
inductive Outcome (α : Type)
  | panic
  | error
  | ok (value : α)
deriving DecidableEq

def Outcome.bind {α β : Type} (outcome : Outcome α) (next : α → Outcome β) : Outcome β :=
  match outcome with
  | .panic => .panic
  | .error => .error
  | .ok value => next value

/-- What the loading loop of `create` asks for: a run for every section, and
then room in `section_info`. -/
def loadOutcome (growth : VecGrowth) : List Nat → Nat → Buffer → FrameAlloc → Outcome (Buffer × FrameAlloc)
  | [], _, buf, a => .ok (buf, a)
  | pages :: rest, len, buf, a =>
    match a.allocateContiguous pages with
    | none => .error
    | some (_, a) =>
      match growth.push 24 len buf a with
      | none => .panic
      | some (buf, a) => loadOutcome growth rest (len + 1) buf a

/-- The pages of an image whose sections have these lengths. -/
def imagePages : List Nat → Nat → List Nat
  | [], _ => []
  | pages :: rest, c => (List.range' 0 pages).map (fun j => 0x200 + (c + j + j)) ++ imagePages rest (c + pages)

/-- All pages that `create` maps, in its order. -/
def spacePages (counts : List Nat) : List Nat := [0x7fffffffe, 0x7ffffffff] ++ imagePages counts 0

/-- The pages before the first one that is not in the lower half. -/
def lowPart (pages : List Nat) : List Nat := pages.takeWhile fun page => decide (page < 2 ^ 35)

/-- What the mapping loops ask for: a frame for every table. -/
def mapOutcome (pages : List Nat) (a : FrameAlloc) : Outcome FrameAlloc :=
  if (lowPart pages).Nodup then
    match FrameAlloc.takeFrames (tableCount (lowPart pages)) a with
    | none => .error
    | some a => if lowPart pages = pages then .ok a else .panic
  else .error

/-- What the address space asks for: the level-4 table, the stack and the
tables. -/
def spaceOutcome (counts : List Nat) (a : FrameAlloc) : Outcome FrameAlloc :=
  match a.allocateContiguous 1 with
  | none => .error
  | some (_, a) =>
    match a.allocateContiguous 2 with
    | none => .error
    | some (_, a) => mapOutcome (spacePages counts) a

/-- What the image asks for; `section_info` ends when all its pages are mapped. -/
def imageOutcome (growth : VecGrowth) (counts : List Nat) (a : FrameAlloc) : Outcome FrameAlloc :=
  (loadOutcome growth counts 0 {} a).bind fun loaded =>
    (spaceOutcome counts loaded.2).bind fun a => .ok (loaded.1.release 24 a)

/-- The lengths of the sections that are loaded. -/
def Image.counts (image : Image) : List Nat := (image.sections.filter Section.loadable).map fun sec => divCeil sec.size pageSize

namespace TaskKernel

/-- The allocator with a process table built. -/
def buildOutcome (t : TaskKernel) (typ : ProcType) (a : FrameAlloc) : Outcome FrameAlloc :=
  if t.built typ then .ok a
  else match a.allocateContiguous (divCeil (maxPs * typ.bytes) pageSize) with
    | none => .panic
    | some (_, a) => .ok a

/-- The allocator without the buffer of a slot that gets a new process. -/
def dropRange (t : TaskKernel) (typ : ProcType) (slot : Nat) (a : FrameAlloc) : FrameAlloc :=
  match typ with
  | .normal => (t.buffers slot).release 16 a
  | .driver => a

/-- What `create_normal` and `create_driver` ask for: the process table, a free
slot in it, and room in the queue. -/
def enlistOutcome (growth : VecGrowth) (typ : ProcType) (t : TaskKernel) (a : FrameAlloc) : Outcome FrameAlloc :=
  (t.buildOutcome typ a).bind fun a =>
    match firstFree fun i => (t.kernel.sched.slot typ i).present with
    | none => .panic
    | some slot =>
      match growth.push 8 (t.kernel.sched.queue typ).length (t.queues typ) (t.dropRange typ slot a) with
      | none => .panic
      | some (_, a) => .ok a

/-- What `create` asks for. -/
def createOutcome (growth : VecGrowth) (image : Image) (t : TaskKernel) : Outcome FrameAlloc :=
  (imageOutcome growth image.counts t.kernel.alloc).bind (enlistOutcome growth image.procType t)

end TaskKernel

namespace Kernel
open Prog

section Vectors
variable {ε : Type} {k : Kernel}

theorem freeBuffer_eq (k : Kernel) (size : Nat) (buf : Buffer) :
    k.freeBuffer size buf = { k with alloc := buf.release size k.alloc } := by
  unfold freeBuffer
  rw [heap_dealloc]
  rfl

theorem slice_inside {data : List UInt8} {base size : Nat} (inside : base + size ≤ data.length) :
    slice data base size ≠ none := by
  unfold slice
  rw [if_pos inside]
  exact Option.some_ne_none _

/-- The loading loop ends as its requests do. -/
theorem loadInto_ends (growth : VecGrowth) (data : List UInt8) (secs : List Section) (infos : List SectionData) (buf : Buffer)
    {top : Nat} (serving : k.alloc.Serving) (wide : k.alloc.maxPage ≤ top)
    (inside : ∀ sec ∈ secs, sec.base + sec.size ≤ data.length) (inRam : ∀ f ∈ infos.flatMap SectionData.frames, f < top) :
    let counts := (secs.filter Section.loadable).map fun sec => divCeil sec.size pageSize
    ends (loadInto growth data secs infos buf)
      (fun out k' => loadOutcome growth counts infos.length buf k.alloc = .ok (out.2, k'.alloc) ∧
        out.1.map SectionData.pages = infos.map SectionData.pages ++ counts ∧
        ∀ f ∈ out.1.flatMap SectionData.frames, f < top)
      (fun _ _ => loadOutcome growth counts infos.length buf k.alloc = .error)
      (loadOutcome growth counts infos.length buf k.alloc = .panic) k := by
  induction secs generalizing infos buf k with
  | nil => exact ends_pure ⟨rfl, (List.append_nil _).symm, inRam⟩
  | cons sec rest ih =>
    have later := fun other member => inside other (List.mem_cons_of_mem sec member)
    unfold loadInto
    split
    · rename_i loadable
      rw [List.filter_cons_of_pos loadable, List.map_cons]
      refine ends_bind (ends_allocateContiguous (fun full => ?_) fun f a run => ?_)
      · refine ends_bind (ends_write (ends_fail ?_))
        simp only [loadOutcome, full]
      · have serving1 := serving.allocate run
        refine ends_bind (ends_reserve growth (by decide) serving1 (fun buf' a' pushed => ?_) fun refused => ?_)
        · obtain ⟨bytes, sliced⟩ := Option.ne_none_iff_exists'.mp (slice_inside (inside sec (List.mem_cons_self ..)))
          rw [sliced]
          refine ends_bind (ends_unwrap (fun bytes' _ => ends_bind (ends_write ?_)) fun none => absurd none (Option.some_ne_none _))
          have shape : a'.shape = k.alloc.shape := (VecGrowth.push_shape pushed).trans (FrameAlloc.shape_allocate run)
          have pages : a'.maxPage = k.alloc.maxPage := congrArg Prod.fst shape
          have step (counts : List Nat) (info : SectionData) :
              loadOutcome growth (divCeil sec.size pageSize :: counts) infos.length buf k.alloc =
                loadOutcome growth counts (infos ++ [info]).length buf' a' := by
            rw [List.length_append, List.length_singleton, loadOutcome, run]
            dsimp only
            rw [pushed]
          rw [step _ ⟨f * 4096, divCeil sec.size pageSize, sec.execable⟩]
          refine (ih _ buf' (serving1.push pushed) (pages.symm ▸ wide) later fun g listed => ?_).mono ?_ (fun _ _ => id) id
          · rw [List.flatMap_append, List.flatMap_singleton, List.mem_append, SectionData.frames,
              Nat.mul_div_cancel f (by decide), List.mem_range'_1] at listed
            rcases listed with old | ⟨_, upper⟩
            · exact inRam g old
            · have last := (FrameAlloc.allocateContiguous_some run).2.1
              change g < f + divCeil sec.size pageSize at upper
              omega
          · rintro out k' ⟨outcome, lengths, frames⟩
            refine ⟨outcome, lengths.trans ?_, frames⟩
            rw [List.map_append, List.append_assoc]
            rfl
        · simp only [loadOutcome, run, refused]
    · rename_i skipped
      rw [List.filter_cons_of_neg skipped]
      exact ih infos buf serving wide later inRam

end Vectors

/-- A page of a new address space with what it is mapped to. -/
structure PageMap where
  addr : Nat
  frame : Nat
  flags : Nat

def PageMap.page (map : PageMap) : Nat := map.addr / 4096

section Mapping
variable (mapper : PageMapper)

/-- The mapping loops of `create` as one. -/
def mapAll (root : Nat) : List PageMap → Prog Kernel Error Unit
  | [] => pure ()
  | map :: rest => do
    let page ← pageAt map.addr
    mapOrFail mapper root page map.frame map.flags
    mapAll root rest

def stackMaps (typ : ProcType) (stackBase : Nat) : List PageMap :=
  (List.range' 0 stackPages).map fun i => ⟨i * 0x1000 + 0x7fffffffe000, (i * 0x1000 + stackBase) / 4096, stackFlags typ⟩

def sectionMaps (typ : ProcType) (info : SectionData) (c i left : Nat) : List PageMap :=
  (List.range' i left).map fun j =>
    ⟨0x200000 + (c + j + j) * 0x1000, (info.addr + j * 0x1000) / 4096, sectionFlags typ info.executable⟩

def imageMaps (typ : ProcType) : List SectionData → Nat → List PageMap
  | [], _ => []
  | info :: rest, c => sectionMaps typ info c 0 info.pages ++ imageMaps typ rest (c + info.pages)

variable {α : Type} {root : Nat}

theorem mapAll_append (maps more : List PageMap) :
    mapAll mapper root (maps ++ more) = mapAll mapper root maps >>= fun _ => mapAll mapper root more := by
  induction maps with
  | nil => rfl
  | cons map rest ih =>
    rw [List.cons_append, mapAll, mapAll, ih, bind_assoc]
    simp only [bind_assoc]

theorem mapStack_eq (typ : ProcType) (stackBase left i : Nat) :
    mapStack mapper typ root stackBase left i = mapAll mapper root ((List.range' i left).map fun i =>
      ⟨i * 0x1000 + 0x7fffffffe000, (i * 0x1000 + stackBase) / 4096, stackFlags typ⟩) := by
  induction left generalizing i with
  | zero => rfl
  | succ left ih =>
    rw [List.range'_succ, List.map_cons, mapStack, mapAll, ih]

theorem mapSection_eq (typ : ProcType) (info : SectionData) (c left i : Nat) (next : Nat → Prog Kernel Error α) :
    (mapSection mapper typ root info left i (c + i) >>= next) =
      mapAll mapper root (sectionMaps typ info c i left) >>= fun _ => next (c + i + left) := by
  induction left generalizing i with
  | zero => rfl
  | succ left ih =>
    unfold sectionMaps
    rw [List.range'_succ, List.map_cons, mapSection, mapAll]
    simp only [bind_assoc]
    have later := ih (i + 1)
    rw [← Nat.add_assoc, show c + i + 1 + left = c + i + (left + 1) by omega] at later
    rw [later]
    rfl

theorem mapSections_eq (typ : ProcType) (infos : List SectionData) (c : Nat) :
    mapSections mapper typ root infos c = mapAll mapper root (imageMaps typ infos c) := by
  induction infos generalizing c with
  | nil => rfl
  | cons info rest ih =>
    rw [mapSections, imageMaps, mapAll_append, ← ih]
    exact mapSection_eq mapper typ info c info.pages 0 _

theorem makeSpace_eq (typ : ProcType) (infos : List SectionData) :
    makeSpace mapper typ infos = (do
      let pml4 ← makePml4 typ
      let stackBase ← allocateContiguous stackPages >>= Prog.orFail .memoryNotEnough
      mapAll mapper pml4 (stackMaps typ (stackBase * 4096) ++ imageMaps typ infos 0)
      pure pml4) := by
  unfold makeSpace
  simp only [mapAll_append, mapStack_eq, mapSections_eq, bind_assoc, stackMaps]

end Mapping

/-- A new address space in which these pages are mapped: one frame was taken
for every table on the way to them. -/
structure Filled (c : Snapshot) (s : Sched) (R : Set Nat) (root : Nat) (start : FrameAlloc) (pend pages : List Nat)
    (k : Kernel) : Prop where
  trail : Trail False c s R pend k
  mapped : ∀ page, page < 2 ^ 35 → (translate k.mem root page = none ↔ page ∉ pages)
  tables : ∀ p, p ≠ [] → LowPath p → p.length ≤ 3 → (tableWalk k.mem root p = none ↔ p ∉ pages.flatMap tablePaths)
  taken : FrameAlloc.takeFrames (tableCount pages) start = some k.alloc
  distinct : pages.Nodup

/-- Some pages can be mapped: none of them comes twice, and there is a frame
for every table. -/
def Mappable (start : FrameAlloc) (pages : List Nat) : Prop :=
  pages.Nodup ∧ FrameAlloc.takeFrames (tableCount pages) start ≠ none

section Filling
variable {c : Snapshot} {s : Sched} {R : Set Nat} {root page f flags : Nat} {start a : FrameAlloc} {pend pages : List Nat}
  {k : Kernel} {m : Mem} {mapper : ExactMapper}

theorem Filled.mappable (filled : Filled c s R root start pend pages k) : Mappable start pages := by
  refine ⟨filled.distinct, ?_⟩
  rw [filled.taken]
  exact Option.some_ne_none _

theorem Mappable.first {more : List Nat} (mappable : Mappable start (pages ++ more)) : Mappable start pages := by
  refine ⟨(List.nodup_append.mp mappable.1).1, fun missing => mappable.2 ?_⟩
  exact FrameAlloc.takeFrames_none (tableCount_append_le pages more) missing

theorem Filled.next_tables (filled : Filled c s R root start pend pages k) (bound : page < 2 ^ 35) :
    tableCount (pages ++ [page]) = tableCount pages + missingTables k.mem root page := by
  refine tableCount_next fun p inside => ?_
  obtain ⟨n, lower, upper, rfl⟩ := mem_tablePaths.mp inside
  have length : ((pagePath page).take n).length = n := by
    rw [List.length_take, show (pagePath page).length = 4 from rfl]
    omega
  refine filled.tables _ (fun empty => ?_) (path_take_low bound n) (by omega)
  rw [empty] at length
  exact absurd length (by simp; omega)

/-- One page more. -/
theorem Filled.more (filled : Filled c s R root start (f :: pend) pages k) (member : root ∈ R) (bound : page < 2 ^ 35)
    (leaf : LeafFlags flags) (inRam : f < 2 ^ 40) (run : mapper.mapTo k.mem k.alloc root page f flags = (true, m, a)) :
    Filled c s R root start pend (pages ++ [page]) { k with mem := m, alloc := a } := by
  have owns := filled.trail.stage.owns
  obtain ⟨mapped, trail⟩ := filled.trail.mapTo member bound leaf run
  obtain ⟨free, taken⟩ := mapTo_takes owns member bound leaf.ok inRam run
  have new : page ∉ pages := (filled.mapped page bound).mp free
  refine ⟨trail, fun page' bound' => ?_, fun p proper low short => ?_, ?_, ?_⟩
  · rw [List.mem_append, List.mem_singleton, not_or, ← filled.mapped page' bound', Option.eq_none_iff_forall_ne_some,
      Option.eq_none_iff_forall_ne_some]
    constructor
    · intro unmapped
      refine ⟨fun g there => unmapped g ((mapped.pages root page' g member bound').mpr (Or.inl there)), ?_⟩
      rintro rfl
      exact unmapped f ((mapped.pages root page' f member bound').mpr (Or.inr ⟨rfl, rfl, rfl⟩))
    · rintro ⟨before, other⟩ g there
      rcases (mapped.pages root page' g member bound').mp there with old | ⟨_, same, _⟩
      · exact before g old
      · exact other same
  · rw [mapTo_tables owns member bound leaf.ok inRam (List.mem_cons_self ..) run low short, filled.tables p proper low short,
      List.flatMap_append, List.flatMap_singleton, List.mem_append, not_or]
  · rw [filled.next_tables bound, FrameAlloc.takeFrames_add, filled.taken, Option.bind_some]
    exact taken
  · refine List.nodup_append.mpr ⟨filled.distinct, List.nodup_singleton page, fun x old y here same => ?_⟩
    exact new (List.mem_singleton.mp here ▸ same ▸ old)

/-- A page is refused only if it comes twice or its tables get no frames. -/
theorem Filled.refused (filled : Filled c s R root start pend pages k) (owned : c.Owned) (small : SmallPages c.mem c.roots)
    (wide : c.alloc.maxPage ≤ 2 ^ 40) (member : root ∈ R) (bound : page < 2 ^ 35) (ok : PageFlags.Ok flags)
    (inRam : f < 2 ^ 40) (run : mapper.mapTo k.mem k.alloc root page f flags = (false, m, a)) :
    ¬Mappable start (pages ++ [page]) := by
  have now : SmallPages k.mem R := filled.trail.edits.lowEntries entryRule_single owned small
  have size : k.alloc.maxPage = c.alloc.maxPage := congrArg Prod.fst filled.trail.edits.shape
  rw [← size] at wide
  obtain ⟨_, links, frames, tables, full⟩ := mapTo_counts_err filled.trail.stage.owns member bound ok inRam now wide run
  rintro ⟨nodup, served⟩
  have new : page ∉ pages := fun old => (List.nodup_append.mp nodup).2.2 page old page (List.mem_singleton_self page) rfl
  obtain ⟨none, missing⟩ := full ((filled.mapped page bound).mpr new)
  rw [filled.next_tables bound, FrameAlloc.takeFrames_add, filled.taken, Option.bind_some] at served
  obtain ⟨b, taken⟩ := Option.ne_none_iff_exists'.mp served
  have cost := FrameAlloc.freeFrames_take taken
  omega

theorem lowPart_cons {page : Nat} {pages : List Nat} (low : page < 2 ^ 35) : lowPart (page :: pages) = page :: lowPart pages :=
  List.takeWhile_cons_of_pos (decide_eq_true low)

theorem lowPart_high {page : Nat} {pages : List Nat} (high : ¬page < 2 ^ 35) : lowPart (page :: pages) = [] :=
  List.takeWhile_cons_of_neg (by rw [decide_eq_false high]; exact Bool.false_ne_true)

/-- The mapping loop ends as its requests do. -/
theorem mapAll_ends (mapper : ExactMapper) (maps : List PageMap)
    (filled : Filled c s R root start (maps.map PageMap.frame) pages k)
    (owned : c.Owned) (small : SmallPages c.mem c.roots) (wide : c.alloc.maxPage ≤ 2 ^ 40) (member : root ∈ R)
    (leaf : ∀ map ∈ maps, LeafFlags map.flags) (inRam : ∀ map ∈ maps, map.frame < 2 ^ 40) :
    let todo := maps.map PageMap.page
    ends (mapAll mapper.toPageMapper root maps)
      (fun _ k' => lowPart todo = todo ∧ Filled c s R root start [] (pages ++ todo) k')
      (fun _ _ => ¬Mappable start (pages ++ lowPart todo))
      (Mappable start (pages ++ lowPart todo) ∧ lowPart todo ≠ todo) k := by
  induction maps generalizing pages k with
  | nil => exact ends_pure ⟨rfl, (List.append_nil pages).symm ▸ filled⟩
  | cons map rest ih =>
    intro todo
    have flags := leaf map (List.mem_cons_self ..)
    have frame := inRam map (List.mem_cons_self ..)
    unfold mapAll
    refine ends_bind (ends_pageAt (fun bound => ends_bind (ends_bind (ends_mapTo _ fun mapped m a run => ?_))) fun high => ?_)
    · have part : lowPart todo = map.page :: lowPart (rest.map PageMap.page) := lowPart_cons bound
      rw [part, List.append_cons]
      cases mapped with
      | false =>
        have refused : ¬Mappable start (pages ++ [map.page] ++ lowPart (rest.map PageMap.page)) := fun mappable =>
          filled.refused owned small wide member bound flags.ok frame run mappable.first
        exact ends_fail refused
      | true =>
        have next := ih (filled.more member bound flags frame run)
          (fun other there => leaf other (List.mem_cons_of_mem map there))
          fun other there => inRam other (List.mem_cons_of_mem map there)
        refine ends_pure (next.mono ?_ (fun _ _ => id) fun ended => ⟨ended.1, fun same => ended.2 (List.cons.inj same).2⟩)
        rintro _ k' ⟨all, filled'⟩
        refine ⟨congrArg _ all, ?_⟩
        rw [show pages ++ todo = pages ++ [map.page] ++ rest.map PageMap.page from List.append_cons ..]
        exact filled'
    · have none : lowPart todo = [] := lowPart_high high
      rw [none, List.append_nil]
      exact ⟨filled.mappable, (List.cons_ne_nil _ _).symm⟩

theorem mapOutcome_ok (all : lowPart pages = pages) (distinct : pages.Nodup)
    (taken : FrameAlloc.takeFrames (tableCount pages) start = some a) : mapOutcome pages start = .ok a := by
  unfold mapOutcome
  rw [all, if_pos distinct, taken]
  dsimp only
  rw [if_pos rfl]

theorem mapOutcome_error (refused : ¬Mappable start (lowPart pages)) : mapOutcome pages start = .error := by
  unfold mapOutcome
  split
  · rename_i distinct
    cases taken : FrameAlloc.takeFrames (tableCount (lowPart pages)) start with
    | none => rfl
    | some a => exact absurd ⟨distinct, taken ▸ Option.some_ne_none a⟩ refused
  · rfl

theorem mapOutcome_panic (mappable : Mappable start (lowPart pages)) (beyond : lowPart pages ≠ pages) :
    mapOutcome pages start = .panic := by
  obtain ⟨a, taken⟩ := Option.ne_none_iff_exists'.mp mappable.2
  unfold mapOutcome
  rw [if_pos mappable.1, taken]
  dsimp only
  rw [if_neg beyond]

/-- A new level-4 table has no table below it in the lower half. -/
theorem plant_walk (m : Mem) (root e : Nat) {p : List (Fin 512)} (proper : p ≠ []) (low : LowPath p) :
    tableWalk ((m.zeroFrame root).setEntry root 256 e) root p = none := by
  cases p with
  | nil => exact absurd rfl proper
  | cons i rest =>
    have first : LowPath [i] := lowPath_closed [i] rest low
    rw [tableWalk, Forest.walk, entry_root_self _ _ _ (low_ne_256 first), pteFrame_zero, Option.bind_none]

/-- The address space before the first page. -/
theorem Filled.empty {base : Nat} {a' : FrameAlloc} (typ : ProcType) (stage : Stage s R pend k)
    (run : k.alloc.allocateContiguous 1 = some (root, a)) (run' : a.allocateContiguous 2 = some (base, a')) :
    Filled (k.snapshot R pend) s (insert root R) root a' (List.range' base 2 ++ pend) [] { k with
      mem := (k.mem.zeroFrame root).setEntry root 256 (pte (upperTable typ) (PageFlags.present ||| PageFlags.writable))
      alloc := a' } := by
  have start : Trail False (k.snapshot R pend) s R pend k := stage.trail
  have taken : Trail False (k.snapshot R pend) s R (root :: pend) { k with alloc := a } := start.allocate run
  refine ⟨(taken.plant (upperTable_shared typ)).allocate run', fun page bound => ?_, fun p proper low _ => ?_, rfl,
    List.nodup_nil⟩
  · exact iff_of_true (plant_walk _ root _ (List.cons_ne_nil _ _) (pagePath_low bound)) List.not_mem_nil
  · exact iff_of_true (plant_walk _ root _ proper low) List.not_mem_nil

end Filling

section Maps
variable (typ : ProcType)

theorem stackMaps_pages (stackBase : Nat) : (stackMaps typ stackBase).map PageMap.page = [0x7fffffffe, 0x7ffffffff] := by
  have page (i : Nat) : (i * 0x1000 + 0x7fffffffe000) / 4096 = 0x7fffffffe + i := by omega
  show [(0 * 0x1000 + 0x7fffffffe000) / 4096, (1 * 0x1000 + 0x7fffffffe000) / 4096] = _
  rw [page, page]

theorem stackMaps_frames (base : Nat) : (stackMaps typ (base * 4096)).map PageMap.frame = List.range' base 2 := by
  have frame (i : Nat) : (i * 0x1000 + base * 4096) / 4096 = base + i := by omega
  show [(0 * 0x1000 + base * 4096) / 4096, (1 * 0x1000 + base * 4096) / 4096] = [base, base + 1]
  rw [frame, frame, Nat.add_zero]

theorem imageMaps_pages (infos : List SectionData) (c : Nat) :
    (imageMaps typ infos c).map PageMap.page = imagePages (infos.map SectionData.pages) c := by
  induction infos generalizing c with
  | nil => rfl
  | cons info rest ih =>
    rw [imageMaps, List.map_append, ih, List.map_cons, imagePages, sectionMaps, List.map_map]
    refine congrArg (· ++ _) (List.map_congr_left fun j _ => ?_)
    show (0x200000 + (c + j + j) * 0x1000) / 4096 = 0x200 + (c + j + j)
    omega

theorem imageMaps_frames (infos : List SectionData) (c : Nat) :
    (imageMaps typ infos c).map PageMap.frame = infos.flatMap SectionData.frames := by
  induction infos generalizing c with
  | nil => rfl
  | cons info rest ih =>
    have shifted : (List.range' 0 info.pages).map (info.addr / 4096 + ·) = info.frames := by
      rw [List.map_add_range', Nat.add_zero, SectionData.frames]
    rw [imageMaps, List.map_append, ih, List.flatMap_cons, sectionMaps, List.map_map, ← shifted]
    refine congrArg (· ++ _) (List.map_congr_left fun j _ => ?_)
    show (info.addr + j * 0x1000) / 4096 = info.addr / 4096 + j
    omega

theorem imageMaps_leaf (infos : List SectionData) (c : Nat) : ∀ map ∈ imageMaps typ infos c, LeafFlags map.flags := by
  induction infos generalizing c with
  | nil => exact fun _ none => absurd none List.not_mem_nil
  | cons info rest ih =>
    intro map there
    rcases List.mem_append.mp there with here | later
    · obtain ⟨j, _, rfl⟩ := List.mem_map.mp here
      exact sectionFlags_leaf typ info.executable
    · exact ih _ map later

end Maps

section Space
variable {s : Sched} {R : Set Nat} {k : Kernel} {infos : List SectionData}

/-- The address space ends as its requests do. -/
theorem makeSpace_ends (mapper : ExactMapper) (typ : ProcType) (stage : Stage s R (infos.flatMap SectionData.frames) k)
    (small : SmallPages k.mem R) (wide : k.alloc.maxPage ≤ 2 ^ 40)
    (inRam : ∀ f ∈ infos.flatMap SectionData.frames, f < 2 ^ 40) :
    ends (makeSpace mapper.toPageMapper typ infos)
      (fun _ k' => spaceOutcome (infos.map SectionData.pages) k.alloc = .ok k'.alloc)
      (fun _ _ => spaceOutcome (infos.map SectionData.pages) k.alloc = .error)
      (spaceOutcome (infos.map SectionData.pages) k.alloc = .panic) k := by
  rw [makeSpace_eq]
  unfold makePml4
  refine ends_bind (ends_bind (ends_allocate_orFail (fun full => ?_) fun root a run => ?_))
  · simp only [spaceOutcome, full]
  refine ends_bind (ends_write (ends_pure (ends_bind (ends_allocate_orFail (fun full => ?_) fun base a' run' => ?_))))
  · change a.allocateContiguous 2 = none at full
    simp only [spaceOutcome, run, full]
  · change a.allocateContiguous 2 = some (base, a') at run'
    have outcome : spaceOutcome (infos.map SectionData.pages) k.alloc =
        mapOutcome (spacePages (infos.map SectionData.pages)) a' := by
      simp only [spaceOutcome, run, run']
    rw [outcome]
    have pending : (stackMaps typ (base * 4096) ++ imageMaps typ infos 0).map PageMap.frame =
        List.range' base 2 ++ infos.flatMap SectionData.frames := by
      rw [List.map_append, stackMaps_frames, imageMaps_frames]
    have pages : (stackMaps typ (base * 4096) ++ imageMaps typ infos 0).map PageMap.page =
        spacePages (infos.map SectionData.pages) := by
      rw [List.map_append, stackMaps_pages, imageMaps_pages, spacePages]
    have low : ∀ map ∈ stackMaps typ (base * 4096) ++ imageMaps typ infos 0, map.frame < 2 ^ 40 := by
      intro map there
      have listed := pending ▸ List.mem_map_of_mem there
      rcases List.mem_append.mp listed with new | old
      · have upper := (List.mem_range'_1.mp new).2
        have last := (FrameAlloc.allocateContiguous_some run').2.1
        have size : a.maxPage = k.alloc.maxPage := congrArg Prod.fst (FrameAlloc.shape_allocate run)
        omega
      · exact inRam _ old
    have leaf : ∀ map ∈ stackMaps typ (base * 4096) ++ imageMaps typ infos 0, LeafFlags map.flags := by
      intro map there
      rcases List.mem_append.mp there with here | later
      · obtain ⟨i, _, rfl⟩ := List.mem_map.mp here
        exact stackFlags_leaf typ
      · exact imageMaps_leaf typ infos 0 map later
    have filled := Filled.empty typ stage run run'
    rw [← pending] at filled
    have ended := mapAll_ends mapper _ filled stage.owns small wide (Set.mem_insert root R) leaf low
    rw [pages] at ended
    refine ends_bind (ended.mono ?_ (fun _ _ refused => mapOutcome_error refused) fun both => mapOutcome_panic both.1 both.2)
    rintro _ k' ⟨all, filled'⟩
    exact ends_pure (mapOutcome_ok all filled'.distinct filled'.taken)

theorem buildSpace_ends (mapper : ExactMapper) (growth : VecGrowth) {data : List UInt8} {image : Image}
    (stage : Stage k.sched R [] k) (small : SmallPages k.mem R) (wide : k.alloc.maxPage ≤ 2 ^ 40)
    (inside : ∀ sec ∈ image.sections, sec.base + sec.size ≤ data.length) :
    ends (buildSpace mapper.toPageMapper growth data image)
      (fun _ k' => imageOutcome growth image.counts k.alloc = .ok k'.alloc)
      (fun _ _ => imageOutcome growth image.counts k.alloc = .error)
      (imageOutcome growth image.counts k.alloc = .panic) k := by
  have first := loadInto_ends growth data image.sections [] {} stage.serving wide inside
    fun _ none => absurd none List.not_mem_nil
  refine ends_bind ((first.and (loadInto_first growth data image.sections stage)).mono ?_ ?_ ?_)
  · rintro ⟨infos, buf⟩ k1 ⟨⟨loads, lengths, inRam⟩, trail, _⟩
    have inner : Stage k.sched R (infos.flatMap SectionData.frames) k1 := (trail.perm List.perm_append_comm).discard.stage
    have small1 : SmallPages k1.mem R := trail.edits.lowEntries entryRule_single stage.owns small
    have size : k1.alloc.maxPage = k.alloc.maxPage := congrArg Prod.fst trail.edits.shape
    have space := makeSpace_ends mapper image.procType inner small1 (size.symm ▸ wide) inRam
    have counts : infos.map SectionData.pages = image.counts := lengths
    rw [counts] at space
    have outcome : imageOutcome growth image.counts k.alloc =
        (spaceOutcome image.counts k1.alloc).bind fun a => .ok (buf.release 24 a) := by
      rw [imageOutcome, show loadOutcome growth image.counts 0 {} k.alloc = .ok (buf, k1.alloc) from loads]
      rfl
    rw [outcome]
    refine ends_ensure (space.mono (fun _ k2 done => ?_) (fun _ _ failed => ?_) fun panics => ?_)
    · rw [done, freeBuffer_eq]
      rfl
    · rw [failed]
      rfl
    · rw [panics]
      rfl
  · rintro _ _ ⟨failed, _⟩
    rw [imageOutcome, show loadOutcome growth image.counts 0 {} k.alloc = .error from failed]
    rfl
  · intro panics
    rw [imageOutcome, show loadOutcome growth image.counts 0 {} k.alloc = .panic from panics]
    rfl

theorem enroll_ends (typ : ProcType) (pml4 priority : Nat) :
    ends (enroll typ pml4 priority)
      (fun _ k' => ∃ slot s', (firstFree fun i => (k.sched.slot typ i).present) = some slot ∧
        s'.queue typ = k.sched.queue typ ++ [slot] ∧ k' = { k with sched := s' })
      (fun _ _ => False) ((firstFree fun i => (k.sched.slot typ i).present) = none) k := by
  refine ends_bind (ends_read (ends_bind (ends_unwrap (fun s' run => ends_write ?_) fun full => ?_)))
  · cases typ with
    | normal =>
      obtain ⟨slot, found, rfl⟩ := Option.map_eq_some_iff.mp run
      exact ⟨slot, _, found, rfl, rfl⟩
    | driver =>
      obtain ⟨slot, found, rfl⟩ := Option.map_eq_some_iff.mp run
      exact ⟨slot, _, found, rfl, rfl⟩
  · cases typ with
    | normal => exact Option.map_eq_none_iff.mp full
    | driver => exact Option.map_eq_none_iff.mp full

end Space

end Kernel

namespace TaskKernel
open Kernel Prog

variable {t : TaskKernel} {typ : ProcType} {growth : VecGrowth}

theorem build_ends {ε : Type} {E : ε → TaskKernel → Prop} (typ : ProcType) (serving : t.kernel.alloc.Serving) :
    ends (build typ)
      (fun _ t' => ∃ a built, t.buildOutcome typ t.kernel.alloc = .ok a ∧ a.Serving ∧
        t' = { t with kernel := { t.kernel with alloc := a }, built := built })
      E (t.buildOutcome typ t.kernel.alloc = .panic) t := by
  refine ends_bind (ends_read ?_)
  unfold buildOutcome
  split
  · exact ends_pure ⟨_, _, rfl, serving, rfl⟩
  · have positive : 0 < maxPs * typ.bytes := by cases typ <;> decide
    refine ends_bind (ends_within (ends_newBuffer serving positive (fun f a run => ends_write ?_) fun full => ?_))
    · rw [run]
      exact ⟨a, _, rfl, serving.allocate run, rfl⟩
    · rw [full]

theorem dropOld_kernel {slot : Nat} (newest : t.kernel.newestSlot typ = slot) :
    (dropOld typ t).kernel = { t.kernel with alloc := t.dropRange typ slot t.kernel.alloc } := by
  cases typ with
  | normal =>
    show (t.replace t.kernel (t.kernel.newestSlot .normal)).kernel = _
    rw [newest]
    exact freeBuffer_eq t.kernel 16 (t.buffers slot)
  | driver => rfl

theorem dropRange_serving {a : FrameAlloc} (t : TaskKernel) (typ : ProcType) (slot : Nat) (serving : a.Serving) :
    (t.dropRange typ slot a).Serving := by
  cases typ with
  | normal => exact serving.release (t.buffers slot) 16
  | driver => exact serving

theorem enlist_ends (growth : VecGrowth) (typ : ProcType) (root priority : Nat) (serving : t.kernel.alloc.Serving) :
    ends (enlist growth typ root priority)
      (fun _ t' => enlistOutcome growth typ t t.kernel.alloc = .ok t'.kernel.alloc) (fun _ _ => False)
      (enlistOutcome growth typ t t.kernel.alloc = .panic) t := by
  unfold enlistOutcome
  refine ends_bind ((build_ends typ serving).mono ?_ (fun _ _ => id) fun panics => by rw [panics]; rfl)
  rintro _ _ ⟨a, built, first, serving1, rfl⟩
  rw [first]
  dsimp only [Outcome.bind]
  refine ends_bind (ends_read (ends_bind (ends_within ((enroll_ends typ root priority).mono ?_ (fun _ _ => id) fun full => ?_))))
  · rintro _ _ ⟨slot, s', found, queue, rfl⟩
    rw [found]
    dsimp only
    refine ends_bind (ends_write (ends_bind (ends_within ?_)))
    rw [dropOld_kernel (show newestSlot _ typ = slot by unfold newestSlot; rw [queue, List.getLast?_concat]; rfl)]
    refine ends_reserve growth (by decide) (dropRange_serving _ typ slot serving1) (fun buf' a' pushed => ends_write ?_)
      fun refused => ?_
    · rw [show growth.push 8 (t.kernel.sched.queue typ).length (t.queues typ) (t.dropRange typ slot a) = some (buf', a')
        from pushed]
    · rw [show growth.push 8 (t.kernel.sched.queue typ).length (t.queues typ) (t.dropRange typ slot a) = none from refused]
  · rw [full]

theorem enlistOutcome_sched {k : Kernel} (same : k.sched = t.kernel.sched) (a : FrameAlloc) :
    enlistOutcome growth typ { t with kernel := k } a = enlistOutcome growth typ t a := by
  obtain ⟨m, b, s⟩ := k
  obtain rfl : s = t.kernel.sched := same
  rfl

/-- `create` ends as its requests do. -/
theorem create_ends (mapper : ExactMapper) {parse : List UInt8 → Option Image} {data : List UInt8} {image : Image}
    {R : Set Nat} (priority : Nat) (sound : t.Sound R) (wide : t.kernel.alloc.maxPage ≤ 2 ^ 40)
    (parsed : parse data = some image) (valid : image.valid = true)
    (inside : ∀ sec ∈ image.sections, sec.base + sec.size ≤ data.length) :
    ends (create mapper.toPageMapper growth parse data priority)
      (fun _ t' => createOutcome growth image t = .ok t'.kernel.alloc) (fun _ _ => createOutcome growth image t = .error)
      (createOutcome growth image t = .panic) t := by
  have stage := sound.heap.valid.stage
  unfold create createOutcome
  rw [parsed]
  refine ends_bind (ends_pure ?_)
  rw [if_pos valid]
  have space := buildSpace_ends mapper growth stage sound.heap.small wide inside
  refine ends_bind (ends_within ((space.and (buildSpace_wp growth mapper.toPageMapper data image stage)).mono ?_ ?_ ?_))
  · rintro root k ⟨outcome, space⟩
    rw [outcome]
    have last := enlist_ends (t := { t with kernel := k }) growth image.procType root priority space.trail.stage.serving
    rw [enlistOutcome_sched space.trail.stage.sched] at last
    exact last.mono (fun _ _ => id) (fun _ _ => False.elim) id
  · rintro _ _ ⟨failed, _⟩
    rw [failed]
    rfl
  · intro panics
    rw [panics]
    rfl

theorem create_succeeds (mapper : ExactMapper) {parse : List UInt8 → Option Image} {data : List UInt8} {image : Image}
    {R : Set Nat} {a : FrameAlloc} (priority : Nat) (sound : t.Sound R) (wide : t.kernel.alloc.maxPage ≤ 2 ^ 40)
    (parsed : parse data = some image) (valid : image.valid = true)
    (inside : ∀ sec ∈ image.sections, sec.base + sec.size ≤ data.length) (served : createOutcome growth image t = .ok a) :
    ∃ t', create mapper.toPageMapper growth parse data priority t = some (.ok (), t') ∧ t'.kernel.alloc = a := by
  have known : ends (create mapper.toPageMapper growth parse data priority) (fun _ t' => t'.kernel.alloc = a)
      (fun _ _ => False) False t := by
    refine (create_ends mapper priority sound wide parsed valid inside).mono ?_ ?_ ?_
    · exact fun _ t' same => Outcome.ok.inj (same.symm.trans served)
    · exact fun _ _ failed => nomatch failed.symm.trans served
    · exact fun panics => nomatch panics.symm.trans served
  obtain ⟨_, t', run, same⟩ := known.returns
  exact ⟨t', run, same⟩

theorem create_panics_iff {mapper : ExactMapper} {parse : List UInt8 → Option Image} {data : List UInt8} {image : Image}
    {R : Set Nat} (priority : Nat) (sound : t.Sound R) (wide : t.kernel.alloc.maxPage ≤ 2 ^ 40)
    (parsed : parse data = some image) (valid : image.valid = true)
    (inside : ∀ sec ∈ image.sections, sec.base + sec.size ≤ data.length) :
    create mapper.toPageMapper growth parse data priority t = none ↔ createOutcome growth image t = .panic := by
  refine ends.panics_iff ((create_ends mapper priority sound wide parsed valid inside).mono ?_ ?_ id)
  · intro _ _ done panics
    rw [done] at panics
    cases panics
  · intro _ _ failed panics
    rw [failed] at panics
    cases panics

/-- `create` returns exactly if none of its requests is refused where it does
not expect that. -/
theorem create_returns_iff {mapper : ExactMapper} {parse : List UInt8 → Option Image} {map : MemoryMap} {start : Kernel}
    {tables : Set Nat} {data : List UInt8} {priority : Nat} {image : Image} (boot : start.Boot map)
    (reach : Reach mapper.toPageMapper growth parse (fresh start) t tables) (wide : t.kernel.alloc.maxPage ≤ 2 ^ 40)
    (parsed : parse data = some image) (valid : image.valid = true)
    (inside : ∀ sec ∈ image.sections, sec.base + sec.size ≤ data.length) :
    create mapper.toPageMapper growth parse data priority t ≠ none ↔ createOutcome growth image t ≠ .panic := by
  obtain ⟨R, follows, _⟩ := reach.follows boot
  exact not_congr (create_panics_iff priority follows.sound wide parsed valid inside)

/-- A machine with three free frames: they go to the code, to `section_info`
and to the level-4 table, and `create` returns an error. -/
theorem create_returns_three_frames :
    create FourLevel.exactMapper.toPageMapper .amortized flatParse [0x90] 0 (fresh (ramKernel 0x1e04)) ≠ none := by
  have boot : (ramKernel 0x1e04).Boot [⟨0, 0x1e04000, .freeRAM⟩] :=
    ramKernel_boot (by decide) (by decide) (by decide)
  refine (create_returns_iff boot .boot (by decide) rfl rfl ?_).mpr ?_
  · intro sec there
    rw [List.mem_singleton.mp there]
    decide
  · decide +kernel

/-- A machine with one free frame: it goes to the code, and `section_info` gets
none. -/
theorem create_panics_one_frame :
    create FourLevel.exactMapper.toPageMapper .amortized flatParse [0x90] 0 (fresh (ramKernel 0x1e02)) = none := by
  have boot : (ramKernel 0x1e02).Boot [⟨0, 0x1e02000, .freeRAM⟩] :=
    ramKernel_boot (by decide) (by decide) (by decide)
  refine (create_panics_iff 0 (Sound.boot boot) (by decide) rfl rfl ?_).mpr ?_
  · intro sec there
    rw [List.mem_singleton.mp there]
    decide
  · decide +kernel

section First
open FrameAlloc

/-- What the image of one byte takes on an unused machine, frame by frame: the code,
room for `section_info`, the level-4 table, two pages of stack and six tables. The
second frame is given back when the pages are mapped. -/
theorem imageOutcome_stacks {pages : Nat} (enough : 0x1e0c ≤ pages) :
    ∃ a, Stacks 11 (ramAlloc pages) a ∧
      imageOutcome .amortized [1] (ramAlloc pages) = .ok (a.deallocateContiguous 0x1e02 1) := by
  have room {k n : Nat} {a : FrameAlloc} (taken : Stacks k (ramAlloc pages) a) (fits : k + n ≤ 11) :
      a.pos + n ≤ a.maxPage := by
    have bound : a.maxPage = pages := congrArg Prod.fst taken.shape
    have pos : a.pos = 0x1e01 + k := taken.pos
    omega
  obtain ⟨a1, code, stack1⟩ := (@ramAlloc_fresh pages (by omega)).allocate (n := 1) (show 0x1e01 + 1 ≤ pages by omega)
  obtain ⟨a2, info, more2⟩ := stack1.fresh.allocate (n := 1) (room stack1 (by decide))
  have stack2 := stack1.trans more2
  obtain ⟨a3, root, more3⟩ := stack2.fresh.allocate (n := 1) (room stack2 (by decide))
  have stack3 := stack2.trans more3
  obtain ⟨a4, stack, more4⟩ := stack3.fresh.allocate (n := 2) (room stack3 (by decide))
  have stack4 := stack3.trans more4
  obtain ⟨a5, tables, more5⟩ := stack4.fresh.take (n := 6) (room stack4 (by decide))
  rw [stack1.pos] at info
  have loaded : loadOutcome .amortized [1] 0 {} (ramAlloc pages) = .ok (⟨4, 0x1e02 * 4096⟩, a2) := by
    rw [loadOutcome, code]
    dsimp only
    rw [VecGrowth.push_new rfl info]
    rfl
  have mapped : mapOutcome (spacePages [1]) a4 = .ok a5 := by
    have count : tableCount (lowPart (spacePages [1])) = 6 := by decide
    rw [mapOutcome, if_pos (by decide), count, tables]
    dsimp only
    rw [if_pos (by decide)]
  have spaced : spaceOutcome [1] a2 = .ok a5 := by
    rw [spaceOutcome, root]
    dsimp only
    rw [stack]
    exact mapped
  have freed : Buffer.release 24 ⟨4, 0x1e02 * 4096⟩ a5 = a5.deallocateContiguous 0x1e02 1 := by
    rw [Buffer.release, Nat.mul_div_cancel _ (by decide)]
    rfl
  refine ⟨a5, stack4.trans more5, ?_⟩
  rw [imageOutcome, loaded, Outcome.bind, spaced, Outcome.bind, freed]

theorem imageOutcome_first {pages : Nat} (enough : 0x1e0c ≤ pages) :
    ∃ a, imageOutcome .amortized [1] (ramAlloc pages) = .ok a ∧ a.FreshAbove ∧ a.pos = 0x1e0c ∧
      a.shape = (ramAlloc pages).shape ∧ ¬Used a.bitmap 0x1e02 ∧ a.freeFrames + 0x1e0b = pages := by
  obtain ⟨a, stack, outcome⟩ := imageOutcome_stacks enough
  have lower : 0x1e01 ≤ pages := by omega
  have bound : a.maxPage = pages := congrArg Prod.fst stack.shape
  have edge : a.reserved + a.selfUsedPage = 0x1e01 := boundary_of_shape stack.shape
  have sized := (ramAlloc_sized lower).of_shape stack.shape
  have given : (a.deallocateContiguous 0x1e02 1).freeFrames = a.freeFrames + 1 := by
    refine freeFrames_deallocate sized (by omega) (by omega) fun q above below => ?_
    exact (stack.used q).mpr (Or.inr ⟨by show 0x1e01 ≤ q; omega, by show q < 0x1e01 + _; omega⟩)
  have free := stack.free
  have total := ramAlloc_free lower
  exact ⟨_, outcome, stack.fresh.deallocate _ _, (pos_deallocate ..).trans stack.pos, (shape_deallocate ..).trans stack.shape,
    deallocate_unused sized (by omega) (by omega) (by decide), by omega⟩

/-- The first process of one byte gets everything on a machine with enough memory,
and the process table and the queue take 897 frames more. -/
theorem createOutcome_first {pages : Nat} (enough : 0x218c ≤ pages) :
    ∃ a, createOutcome .amortized ⟨true, false, [⟨0, 1, true, true⟩]⟩ (fresh (ramKernel pages)) = .ok a ∧
      a.freeFrames + 0x218c = pages := by
  obtain ⟨a1, image, fresh1, pos1, shape1, hole, free1⟩ := @imageOutcome_first pages (by omega)
  have bound : a1.maxPage = pages := congrArg Prod.fst shape1
  obtain ⟨a2, table, stack2⟩ := fresh1.allocate (n := 896) (by omega)
  have free2 := stack2.free
  have pos2 : a2.pos = a1.pos + 896 := stack2.pos
  have reserved : a2.reserved = 0x1e00 := congrArg (fun s => s.2.1) (stack2.shape.trans shape1)
  have bound2 : a2.maxPage = pages := congrArg Prod.fst (stack2.shape.trans shape1)
  have served : a2.FreeRun 1 := by
    refine ⟨0x1e02, by omega, by omega, fun q lower upper used => ?_⟩
    obtain rfl : q = 0x1e02 := by omega
    exact ((stack2.used _).mp used).elim hole (by omega)
  obtain ⟨⟨f, a3⟩, queue⟩ := Option.ne_none_iff_exists'.mp
    (mt (allocateContiguous_none_iff 1 (by omega)).mp (not_not.mpr served))
  have free3 := freeFrames_allocate queue
  refine ⟨a3, ?_, by omega⟩
  have built : buildOutcome (fresh (ramKernel pages)) .normal a1 = .ok a2 := by
    exact congrArg (fun out => match out with | none => Outcome.panic | some (_, a) => .ok a) table
  have pushed : VecGrowth.amortized.push 8 0 {} a2 = some (⟨4, f * 4096⟩, a3) := VecGrowth.push_new rfl queue
  have enlisted : enlistOutcome .amortized .normal (fresh (ramKernel pages)) a1 = .ok a3 := by
    have slot : (firstFree fun i => ((fresh (ramKernel pages)).kernel.sched.slot .normal i).present) = some 0 := rfl
    have dropped : dropRange (fresh (ramKernel pages)) .normal 0 a2 = a2 := Buffer.release_new 16 a2
    rw [enlistOutcome, built, Outcome.bind, slot]
    dsimp only
    rw [dropped]
    exact congrArg (fun out => match out with | none => Outcome.panic | some (_, a) => .ok a) pushed
  show Outcome.bind (imageOutcome .amortized [1] (ramAlloc pages)) _ = _
  rw [image]
  exact enlisted

theorem create_first_process {pages : Nat} {map : MemoryMap} (boot : (ramKernel pages).Boot map) (enough : 0x218c ≤ pages)
    (wide : pages ≤ 2 ^ 40) :
    ∃ t, create FourLevel.exactMapper.toPageMapper .amortized flatParse [0x90] 0 (fresh (ramKernel pages)) = some (.ok (), t) ∧
      t.kernel.alloc.freeFrames + 0x218c = pages := by
  obtain ⟨a, outcome, free⟩ := createOutcome_first enough
  have inside : ∀ sec ∈ [(⟨0, 1, true, true⟩ : Section)], sec.base + sec.size ≤ [(0x90 : UInt8)].length := by
    intro sec there
    rw [List.mem_singleton.mp there]
    decide
  have parsed : flatParse [0x90] = some ⟨true, false, [⟨0, 1, true, true⟩]⟩ := rfl
  obtain ⟨t, run, rfl⟩ := create_succeeds FourLevel.exactMapper 0 (Sound.boot boot) wide parsed rfl inside outcome
  exact ⟨t, run, free⟩

end First

end TaskKernel

end ProkaKernel
