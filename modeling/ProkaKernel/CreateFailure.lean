import ProkaKernel.CreateOutcome

namespace ProkaKernel

/-- `create` is refused before it gets a frame that it does not give back: the
sections before are empty, and no buffer of `section_info` is at the boundary. -/
def Quits (growth : VecGrowth) : List Nat → Nat → Buffer → FrameAlloc → Prop
  | [], _, _, a => a.allocateContiguous 1 = none
  | pages :: rest, len, buf, a =>
    match a.allocateContiguous pages with
    | none => True
    | some _ => pages = 0 ∧
      match growth.push 24 len buf a with
      | none => True
      | some (buf, a) => buf.ptr / 4096 ≠ a.reserved + a.selfUsedPage ∧ Quits growth rest (len + 1) buf a

namespace FrameAlloc

/-- Some frame is in use that was free. -/
def Grew (start a : FrameAlloc) : Prop := ∃ f, ¬Used start.bitmap f ∧ Used a.bitmap f

/-- The frames in use are those of the start and those of one buffer, and that
can be given back. -/
structure Intact (start : FrameAlloc) (buf : Buffer) (a : FrameAlloc) : Prop where
  used : ∀ f, Used a.bitmap f ↔ Used start.bitmap f ∨ f ∈ buf.frames 24
  fresh : ∀ f ∈ buf.frames 24, ¬Used start.bitmap f
  inside : ∀ f ∈ buf.frames 24, f < a.maxPage
  above : ∀ f ∈ buf.frames 24, a.reserved + a.selfUsedPage < buf.ptr / 4096

/-- Some frame is in use that was free, and it will not be given back with the
buffer. -/
def Leaked (start : FrameAlloc) (buf : Buffer) (a : FrameAlloc) : Prop :=
  ∃ f, ¬Used start.bitmap f ∧ Used a.bitmap f ∧ (f ∈ buf.frames 24 → buf.ptr / 4096 ≤ a.reserved + a.selfUsedPage)

section
variable {start a a' : FrameAlloc} {buf buf' : Buffer} {n f len : Nat} {growth : VecGrowth}

theorem allocate_zero (run : a.allocateContiguous 0 = some (f, a')) : a' = a := by
  obtain ⟨_, _, _, same⟩ := allocateContiguous_some run
  exact same

/-- A buffer at the boundary is kept. -/
theorem release_used (size : Nat) (used : Used a.bitmap f)
    (kept : f ∈ buf.frames size → buf.ptr / 4096 ≤ a.reserved + a.selfUsedPage) :
    Used (buf.release size a).bitmap f := by
  unfold Buffer.release deallocateContiguous
  split
  · exact used
  · rename_i above
    exact (setRun_zero_used ..).mpr ⟨used, Or.inl fun here => above (kept (List.mem_range'_1.mpr here))⟩

theorem Intact.refl (a : FrameAlloc) : Intact a {} a := by
  have empty : ({} : Buffer).frames 24 = [] := rfl
  refine ⟨fun f => ?_, fun _ none => ?_, fun _ none => ?_, fun _ none => ?_⟩
  · rw [empty, or_iff_left List.not_mem_nil]
  all_goals exact absurd none List.not_mem_nil

theorem Intact.release (intact : Intact start buf a) (sized : a.Sized) (f : Nat) :
    Used (buf.release 24 a).bitmap f ↔ Used start.bitmap f := by
  constructor
  · intro used
    unfold Buffer.release deallocateContiguous at used
    split at used
    · rename_i below
      exact ((intact.used f).mp used).resolve_right fun here => Nat.not_le.mpr (intact.above f here) below
    · obtain ⟨before, outside⟩ := (setRun_zero_used ..).mp used
      refine ((intact.used f).mp before).resolve_right fun here => ?_
      have bit := sized f (intact.inside f here)
      exact outside.elim (fun beside => beside (List.mem_range'_1.mp here)) fun missing => absurd missing (Nat.not_le.mpr bit)
  · intro used
    exact release_used 24 ((intact.used f).mpr (Or.inl used)) fun here => absurd used (intact.fresh f here)

theorem Leaked.release (leaked : Leaked start buf a) : Grew start (buf.release 24 a) := by
  obtain ⟨f, unused, used, kept⟩ := leaked
  exact ⟨f, unused, release_used 24 used kept⟩

theorem Leaked.mono (leaked : Leaked start buf a) (shape : a'.shape = a.shape)
    (kept : ∀ f, Used a.bitmap f → Used a'.bitmap f) : Leaked start buf a' := by
  obtain ⟨f, unused, used, lost⟩ := leaked
  exact ⟨f, unused, kept f used, fun here => (boundary_of_shape shape).symm ▸ lost here⟩

theorem Leaked.allocate (leaked : Leaked start buf a) (guarded : a.Guarded) (run : a.allocateContiguous n = some (f, a')) :
    Leaked start buf a' :=
  leaked.mono (shape_allocate run) fun g used => ((guarded.hands run).used g).mpr (Or.inl used)

/-- A frame that is given out is not of the buffer. -/
theorem Intact.leaks (intact : Intact start buf a) (unused : ¬Used a.bitmap f) (used : Used a'.bitmap f) :
    Leaked start buf a' :=
  ⟨f, fun before => unused ((intact.used f).mpr (Or.inl before)), used,
    fun here => absurd ((intact.used f).mpr (Or.inr here)) unused⟩

theorem Intact.allocate (intact : Intact start buf a) (guarded : a.Guarded) (positive : 0 < n)
    (run : a.allocateContiguous n = some (f, a')) : Leaked start buf a' := by
  have hands := guarded.hands run
  have last : f < f + n := by omega
  exact intact.leaks (hands.fresh f (Nat.le_refl f) last) ((hands.used f).mpr (Or.inr ⟨Nat.le_refl f, last⟩))

theorem Leaked.push (leaked : Leaked start buf a) (guarded : a.Guarded) (run : growth.push 24 len buf a = some (buf', a')) :
    Leaked start buf' a' := by
  rcases VecGrowth.push_cases (by decide) run with ⟨_, rfl, rfl⟩ | ⟨n, f, a1, _, positive, taken, place, frames, rfl⟩
  · exact leaked
  · have hands := guarded.hands taken
    obtain ⟨g, unused, used, kept⟩ := leaked
    refine ⟨g, unused, release_used 24 ((hands.used g).mpr (Or.inl used)) fun here => ?_, fun here => ?_⟩
    · rw [boundary_of_shape (shape_allocate taken)]
      exact kept here
    · obtain ⟨lower, upper⟩ := List.mem_range'_1.mp (frames ▸ here)
      exact absurd used (hands.fresh g lower upper)

/-- A run given out beside the buffer belongs to what stays. -/
theorem Intact.more (intact : Intact start buf a) (guarded : a.Guarded) (run : a.allocateContiguous n = some (f, a')) :
    Intact { start with bitmap := setRun start.bitmap f n 1 } buf a' := by
  have hands := guarded.hands run
  have shape := shape_allocate run
  have pages : a'.maxPage = a.maxPage := congrArg Prod.fst shape
  refine ⟨fun g => ?_, fun g here => ?_, fun g here => pages.symm ▸ intact.inside g here, fun g here => ?_⟩
  · rw [hands.used, intact.used, setRun_one_used, or_right_comm]
  · rw [setRun_one_used, not_or]
    exact ⟨intact.fresh g here, fun new => hands.fresh g new.1 new.2 ((intact.used g).mpr (Or.inr here))⟩
  · rw [boundary_of_shape shape]
    exact intact.above g here

/-- After a push the frames in use are again those of the start and of the
buffer, and that is lost if it is at the boundary. -/
theorem Intact.push (intact : Intact start buf a) (guarded : a.Guarded) (sized : a.Sized)
    (run : growth.push 24 len buf a = some (buf', a')) :
    if buf'.ptr / 4096 = a'.reserved + a'.selfUsedPage then Leaked start buf' a' else Intact start buf' a' := by
  rcases VecGrowth.push_cases (by decide) run with ⟨room, rfl, rfl⟩ | ⟨n, f, a1, _, positive, taken, place, frames, rfl⟩
  · have first : buf'.ptr / 4096 ∈ buf'.frames 24 := by
      have pages := divCeil_page (buf'.cap * 24)
      exact List.mem_range'_1.mpr ⟨Nat.le_refl _, by omega⟩
    rw [if_neg (Nat.ne_of_gt (intact.above _ first))]
    exact intact
  · have hands := guarded.hands taken
    have shape : (buf.release 24 a1).shape = a.shape := (shape_deallocate ..).trans (shape_allocate taken)
    have between (g : Nat) : g ∈ buf'.frames 24 ↔ f ≤ g ∧ g < f + n := by rw [frames, List.mem_range'_1]
    have used (g : Nat) : Used (buf.release 24 a1).bitmap g ↔ Used start.bitmap g ∨ g ∈ buf'.frames 24 := by
      rw [(intact.more guarded taken).release (sized.of_shape (shape_allocate taken)), setRun_one_used, between]
    have fresh (g : Nat) (here : g ∈ buf'.frames 24) : ¬Used start.bitmap g := by
      obtain ⟨lower, upper⟩ := (between g).mp here
      exact fun before => hands.fresh g lower upper ((intact.used g).mpr (Or.inl before))
    split
    · rename_i boundary
      have first : f ∈ buf'.frames 24 := (between f).mpr ⟨Nat.le_refl f, by omega⟩
      exact ⟨f, fresh f first, (used f).mpr (Or.inr first), fun _ => Nat.le_of_eq boundary⟩
    · rename_i other
      refine ⟨used, fresh, fun g here => ?_, fun g _ => ?_⟩
      · have pages : (buf.release 24 a1).maxPage = a.maxPage := congrArg Prod.fst shape
        have upper := ((between g).mp here).2
        have last := (allocateContiguous_some taken).2.1
        omega
      · have lower := hands.above positive
        rw [boundary_of_shape shape] at other ⊢
        omega

end

end FrameAlloc

namespace Kernel
open Prog FrameAlloc

section
variable {start : FrameAlloc} {k : Kernel} {buf : Buffer} {infos : List SectionData} {s : Sched} {R : Set Nat} {pend : List Nat}
  (growth : VecGrowth) (data : List UInt8) (secs : List Section)

theorem loadInto_leaked (infos : List SectionData) (leaked : Leaked start buf k.alloc) (serving : k.alloc.Serving) :
    wp (loadInto growth data secs infos buf) (fun out k' => Leaked start out.2 k'.alloc) (fun _ k' => Grew start k'.alloc) k := by
  induction secs generalizing infos buf k with
  | nil => exact wp_pure leaked
  | cons sec rest ih =>
    unfold loadInto
    split
    · refine wp_bind (wp_allocateContiguous (fun _ => wp_bind (wp_write (wp_fail ?_))) fun f a run => ?_)
      · show Grew start (k.freeBuffer 24 buf).alloc
        rw [freeBuffer_eq]
        exact leaked.release
      · have serving1 := serving.allocate run
        refine wp_bind (wp_reserve_push growth (by decide) serving1 fun buf' a' pushed => ?_)
        refine wp_bind (wp_unwrap fun bytes _ => wp_bind (wp_write ?_))
        exact ih _ ((leaked.allocate serving.guarded run).push serving1.guarded pushed) (serving1.push pushed)
    · exact ih infos leaked serving

/-- The loading loop stops without a change, or it goes on with a frame that it
does not give back. -/
theorem loadInto_intact (infos : List SectionData) (intact : Intact start buf k.alloc) (serving : k.alloc.Serving)
    (sized : k.alloc.Sized) :
    let quits := Quits growth ((secs.filter Section.loadable).map fun sec => divCeil sec.size pageSize) infos.length buf k.alloc
    wp (loadInto growth data secs infos buf)
      (fun out k' => (Intact start out.2 k'.alloc ∧ (quits ↔ k'.alloc.allocateContiguous 1 = none)) ∨
        (Leaked start out.2 k'.alloc ∧ ¬quits))
      (fun _ k' => ((∀ f, Used k'.alloc.bitmap f ↔ Used start.bitmap f) ∧ quits) ∨ (Grew start k'.alloc ∧ ¬quits)) k := by
  induction secs generalizing infos buf k with
  | nil => exact wp_pure (Or.inl ⟨intact, Iff.rfl⟩)
  | cons sec rest ih =>
    unfold loadInto
    split
    · rename_i loadable
      rw [List.filter_cons_of_pos loadable, List.map_cons]
      refine wp_bind (wp_allocateContiguous (fun full => wp_bind (wp_write (wp_fail ?_))) fun f a run => ?_)
      · refine Or.inl ⟨fun f => ?_, ?_⟩
        · show Used (k.freeBuffer 24 buf).alloc.bitmap f ↔ _
          rw [freeBuffer_eq]
          exact intact.release sized f
        · rw [Quits, full]
          trivial
      · have serving1 := serving.allocate run
        refine wp_bind (wp_reserve_push growth (by decide) serving1 fun buf' a' pushed => ?_)
        refine wp_bind (wp_unwrap fun bytes _ => wp_bind (wp_write ?_))
        rw [Quits, run]
        dsimp only at pushed ⊢
        by_cases empty : divCeil sec.size pageSize = 0
        · rw [empty] at run
          obtain rfl : a = k.alloc := allocate_zero run
          have moved := intact.push serving.guarded sized pushed
          rw [pushed]
          dsimp only
          split at moved
          · rename_i boundary
            refine (loadInto_leaked growth data rest _ moved (serving1.push pushed)).mono ?_ ?_
            · exact fun _ _ leaked => Or.inr ⟨leaked, fun both => both.2.1 boundary⟩
            · exact fun _ _ grew => Or.inr ⟨grew, fun both => both.2.1 boundary⟩
          · rename_i other
            rw [and_iff_right empty, and_iff_right other]
            rw [← List.length_singleton (a := (⟨f * 4096, divCeil sec.size pageSize, sec.execable⟩ : SectionData)),
              ← List.length_append]
            exact ih _ moved (serving1.push pushed) (sized.of_shape (VecGrowth.push_shape pushed))
        · have leaked := (intact.allocate serving.guarded (Nat.pos_of_ne_zero empty) run).push serving1.guarded pushed
          refine (loadInto_leaked growth data rest _ leaked (serving1.push pushed)).mono ?_ ?_
          · exact fun _ _ leaked => Or.inr ⟨leaked, fun both => empty both.1⟩
          · exact fun _ _ grew => Or.inr ⟨grew, fun both => empty both.1⟩
    · rename_i skipped
      rw [List.filter_cons_of_neg skipped]
      exact ih infos intact serving sized

theorem makePml4_first (typ : ProcType) (guarded : k.alloc.Guarded) :
    wp (makePml4 typ) (fun _ k' => k.alloc.allocateContiguous 1 ≠ none ∧ Grew k.alloc k'.alloc)
      (fun _ k' => k.alloc.allocateContiguous 1 = none ∧ k'.alloc = k.alloc) k := by
  refine wp_bind (wp_allocate_orFail (fun full => ⟨full, rfl⟩) fun f a run => wp_bind (wp_write (wp_pure ⟨?_, f, ?_, ?_⟩)))
  · rw [run]
    exact Option.some_ne_none _
  · exact (guarded.hands run).fresh f (Nat.le_refl f) (Nat.lt_succ_self f)
  · exact ((guarded.hands run).used f).mpr (Or.inr ⟨Nat.le_refl f, Nat.lt_succ_self f⟩)

/-- The address space fails without a change, or it keeps the level-4 table. -/
theorem makeSpace_first (mapper : PageMapper) (typ : ProcType) (stage : Stage s R (infos.flatMap SectionData.frames) k) :
    wp (makeSpace mapper typ infos) (fun _ _ => True)
      (fun _ k' => (k.alloc.allocateContiguous 1 = none ∧ k'.alloc = k.alloc) ∨
        (k.alloc.allocateContiguous 1 ≠ none ∧ Grew k.alloc k'.alloc)) k := by
  have started : Trail False (k.snapshot R _) s R _ k := stage.trail
  refine wp_bind (((makePml4_wp typ started).and (makePml4_first typ stage.owns.guarded)).mono ?_ fun _ _ failed =>
    Or.inl failed.2)
  rintro root k1 ⟨⟨trail1, _, empty, _⟩, served, f, unused, used⟩
  have again : Trail False (k1.snapshot (insert root R) _) s (insert root R) _ k1 := trail1.stage.trail
  refine (fillSpace_wp mapper typ again (Set.mem_insert root R) empty).mono (fun _ _ _ => trivial) fun _ k2 late => ?_
  exact Or.inr ⟨served, f, unused, late.edits.used trail1.stage.owns used⟩

/-- A failed `create` before `create_normal` and `create_driver`. -/
theorem buildSpace_first (mapper : PageMapper) {image : Image} (stage : Stage k.sched R [] k) (sized : k.alloc.Sized) :
    wp (buildSpace mapper growth data image) (fun _ _ => True)
      (fun _ k' => ((∀ f, Used k'.alloc.bitmap f ↔ Used k.alloc.bitmap f) ∧ Quits growth image.counts 0 {} k.alloc) ∨
        (Grew k.alloc k'.alloc ∧ ¬Quits growth image.counts 0 {} k.alloc)) k := by
  have loads := loadInto_intact growth data image.sections [] (Intact.refl k.alloc) stage.serving sized
  refine wp_bind ((loads.and (loadInto_first growth data image.sections stage)).mono ?_ fun _ _ failed => failed.1)
  rintro ⟨infos, buf⟩ k1 ⟨phase, trail, loaded, _⟩
  have inner : Stage k.sched R (infos.flatMap SectionData.frames) k1 := (trail.perm List.perm_append_comm).discard.stage
  have started : Trail False (k1.snapshot R (infos.flatMap SectionData.frames)) k.sched R _ k1 := inner.trail
  refine wp_ensure (((makeSpace_wp mapper image.procType started loaded).and
    (makeSpace_first mapper image.procType inner)).mono (fun _ _ _ => trivial) ?_)
  rintro _ k2 ⟨⟨R', _, late⟩, first⟩
  rw [freeBuffer_eq]
  rcases phase with ⟨intact, quits⟩ | ⟨leaked, goes⟩
  · rcases first with ⟨full, same⟩ | ⟨served, f, unused, used⟩
    · refine Or.inl ⟨fun f => ?_, quits.mpr full⟩
      rw [same]
      exact intact.release (sized.of_shape trail.edits.shape) f
    · exact Or.inr ⟨(intact.leaks unused used).release, fun stops => served (quits.mp stops)⟩
  · exact Or.inr ⟨(leaked.mono late.edits.shape fun f used => late.edits.used inner.owns used).release, goes⟩

end

/-- A call that left the used frames, the process tables and the queues as
they were. -/
structure Unchanged (k k' : Kernel) : Prop where
  used : ∀ f, FrameAlloc.Used k'.alloc.bitmap f ↔ FrameAlloc.Used k.alloc.bitmap f
  tables : k'.sched.normalProcess = k.sched.normalProcess ∧ k'.sched.driverProcess = k.sched.driverProcess
  queues : k'.sched.normalQueue = k.sched.normalQueue ∧ k'.sched.driverQueue = k.sched.driverQueue

end Kernel

namespace TaskKernel
open Kernel Prog FrameAlloc

section
variable {t t' : TaskKernel} {growth : VecGrowth} {parse : List UInt8 → Option Image} {data : List UInt8} {R : Set Nat}

/-- The executable is refused before `create` gets any frame for good: it is no
valid one, or the first run of frames that it needs is refused. -/
def Refused (growth : VecGrowth) (parse : List UInt8 → Option Image) (data : List UInt8) (a : FrameAlloc) : Prop :=
  ∀ image, parse data = some image → image.valid = true → Quits growth image.counts 0 {} a

theorem create_first (mapper : PageMapper) (priority : Nat) (sound : t.Sound R) :
    wp (create mapper growth parse data priority) (fun _ _ => True)
      (fun _ t' => t'.kernel.sched = t.kernel.sched ∧
        (((∀ f, Used t'.kernel.alloc.bitmap f ↔ Used t.kernel.alloc.bitmap f) ∧ Refused growth parse data t.kernel.alloc) ∨
          (Grew t.kernel.alloc t'.kernel.alloc ∧ ¬Refused growth parse data t.kernel.alloc))) t := by
  have stage := sound.heap.valid.stage
  refine wp_bind (wp_orFail (fun image parsed => ?_) fun missing => ⟨rfl, Or.inl ⟨fun _ => Iff.rfl, fun image parsed => ?_⟩⟩)
  · split
    · rename_i valid
      have refused_iff : Refused growth parse data t.kernel.alloc ↔ Quits growth image.counts 0 {} t.kernel.alloc := by
        refine ⟨fun refused => refused image parsed valid, fun quits other same _ => ?_⟩
        cases Option.some.inj (parsed.symm.trans same)
        exact quits
      rw [refused_iff]
      refine wp_bind (wp_within (((buildSpace_wp growth mapper data image stage).and
        (buildSpace_first growth data mapper stage sound.heap.sized)).mono ?_ ?_))
      · rintro root k ⟨space, _⟩
        exact (sound.enlist growth priority space).mono (fun _ _ _ => trivial) fun _ _ => False.elim
      · rintro _ k ⟨⟨R', _, trail, _⟩, first⟩
        exact ⟨trail.stage.sched, first⟩
    · rename_i invalid
      refine wp_fail ⟨rfl, Or.inl ⟨fun _ => Iff.rfl, fun other same valid => ?_⟩⟩
      cases Option.some.inj (parsed.symm.trans same)
      exact absurd valid invalid
  · rw [missing] at parsed
    cases parsed

/-- A failed `create` leaves everything as it was exactly if it got no frame
for good. -/
theorem failed_create_unchanged_iff {mapper : ExactMapper} {map : MemoryMap} {start : Kernel} {tables : Set Nat}
    {priority : Nat} {e : Error} (boot : start.Boot map)
    (reach : Reach mapper.toPageMapper growth parse (fresh start) t tables)
    (failed : create mapper.toPageMapper growth parse data priority t = some (.error e, t')) :
    Unchanged t.kernel t'.kernel ↔ Refused growth parse data t.kernel.alloc := by
  obtain ⟨R, follows, _⟩ := reach.follows boot
  obtain ⟨sched, first⟩ := (create_first mapper.toPageMapper priority follows.sound).error failed
  rcases first with ⟨used, refused⟩ | ⟨⟨f, unused, used⟩, served⟩
  · refine iff_of_true ⟨used, ?_, ?_⟩ refused
    · rw [sched]
      exact ⟨rfl, rfl⟩
    · rw [sched]
      exact ⟨rfl, rfl⟩
  · exact iff_of_false (fun same => unused ((same.used f).mp used)) served

end

/-- On a machine without a free frame `create` changes nothing. -/
theorem failed_create_unchanged_full :
    ∃ e t', create FourLevel.exactMapper.toPageMapper .amortized flatParse [0x90] 0 (fresh (ramKernel 0x1e01)) =
        some (.error e, t') ∧ Unchanged (ramKernel 0x1e01) t'.kernel := by
  have run : ((create FourLevel.exactMapper.toPageMapper .amortized flatParse [0x90] 0 (fresh (ramKernel 0x1e01))).map
      fun out => out.1.isOk) = some false := by
    decide +kernel
  obtain ⟨⟨result, t'⟩, failed, error⟩ := Option.map_eq_some_iff.mp run
  cases result with
  | ok done => cases error
  | error e =>
    have boot : (ramKernel 0x1e01).Boot [⟨0, 0x1e01000, .freeRAM⟩] :=
      ramKernel_boot (by decide) (by decide) (by decide)
    have full : (ramKernel 0x1e01).alloc.allocateContiguous 1 = none := by decide +kernel
    refine ⟨e, t', failed, (failed_create_unchanged_iff boot .boot failed).mpr fun image parsed _ => ?_⟩
    cases Option.some.inj parsed
    show Quits .amortized [1] 0 {} (ramKernel 0x1e01).alloc
    rw [Quits, full]
    trivial

/-- On a machine with three free frames `create` takes one for the code, one for
`section_info` and one for the level-4 table, finds none for the stack, and
does not give the first one back. -/
theorem failed_create_keeps_frame :
    ∃ e t', create FourLevel.exactMapper.toPageMapper .amortized flatParse [0x90] 0 (fresh (ramKernel 0x1e04)) =
        some (.error e, t') ∧ ¬Unchanged (ramKernel 0x1e04) t'.kernel := by
  have run : ((create FourLevel.exactMapper.toPageMapper .amortized flatParse [0x90] 0 (fresh (ramKernel 0x1e04))).map
      fun out => (out.1.isOk, decide (FrameAlloc.Used out.2.kernel.alloc.bitmap 0x1e01),
        decide (FrameAlloc.Used (ramKernel 0x1e04).alloc.bitmap 0x1e01))) = some (false, true, false) := by
    decide +kernel
  obtain ⟨⟨result, t'⟩, failed, same⟩ := Option.map_eq_some_iff.mp run
  simp only [Prod.mk.injEq, decide_eq_true_eq, decide_eq_false_iff_not] at same
  obtain ⟨error, used, unused⟩ := same
  cases result with
  | ok done => cases error
  | error e => exact ⟨e, t', failed, fun unchanged => unused ((unchanged.used _).mp used)⟩

end TaskKernel

end ProkaKernel
