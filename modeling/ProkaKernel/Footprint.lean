import ProkaKernel.CreateOutcome

namespace ProkaKernel

section
variable {back device : Prop} {c c' : Snapshot} {root q n f : Nat} {m m' : Mem} {a a' : FrameAlloc}

/-- Frames from `max_page` on are never handed out. -/
theorem FrameAlloc.allocate_beyond (run : a.allocateContiguous n = some (f, a')) (above : a.maxPage ≤ q)
    (used : Used a'.bitmap q) : Used a.bitmap q := by
  obtain ⟨_, bound, _, rfl⟩ := allocateContiguous_some run
  exact ((setRun_one_used ..).mp used).resolve_right (by omega)

theorem TableGrowth.beyond (growth : TableGrowth root m a m' a') (above : a.maxPage ≤ q)
    (used : FrameAlloc.Used a'.bitmap q) : FrameAlloc.Used a.bitmap q := by
  induction growth with
  | refl => exact used
  | link before _ _ _ _ run _ _ ih =>
    have size := congrArg Prod.fst before.shape
    exact ih (FrameAlloc.allocate_beyond run (size.trans_le above) used)
  | widen _ _ _ _ _ _ _ _ ih => exact ih used

theorem TableTrim.used (trim : TableTrim root m a m' a') (used : FrameAlloc.Used a'.bitmap q) :
    FrameAlloc.Used a.bitmap q := by
  induction trim with
  | refl => exact used
  | prune _ _ _ _ _ ih => exact ih (FrameAlloc.deallocate_used used)

theorem Edit.beyond (edit : Edit back device c c') (above : c.alloc.maxPage ≤ q)
    (used : FrameAlloc.Used c'.alloc.bitmap q) : FrameAlloc.Used c.alloc.bitmap q := by
  cases edit with
  | take run _ => exact FrameAlloc.allocate_beyond run above used
  | grow _ growth => exact growth.beyond above used
  | give _ _ _ => exact FrameAlloc.deallocate_used used
  | trim _ _ trim => exact trim.used used
  | _ => exact used

theorem Edits.beyond (edits : Edits back device c c') (above : c.alloc.maxPage ≤ q)
    (used : FrameAlloc.Used c'.alloc.bitmap q) : FrameAlloc.Used c.alloc.bitmap q := by
  induction edits with
  | refl => exact used
  | tail before edit ih =>
    have size := congrArg Prod.fst (Edits.shape before)
    exact ih (edit.beyond (size.trans_le above) used)

end

namespace HeapKernel

/-- Pages of a process that are mapped and not part of its heap. -/
def Pinned (h : HeapKernel) (r : Nat) (pages : List Nat) : Prop :=
  ∀ page ∈ pages, page < 2 ^ 35 ∧ translate h.kernel.mem r page ≠ none ∧
    ∀ pid, (h.kernel.sched.normalProcess pid).tableAddr = r * 4096 → page ∉ heapPages (h.live pid)

section
variable {h h' : HeapKernel} {R : Set Nat} {r root pid : Nat} {pages : List Nat} {mapper : ExactMapper}
  {growth : VecGrowth} {result : Except Int Int}

/-- An event that takes no page away. -/
theorem Pinned.other (pinned : h.Pinned r pages)
    (kept : ∀ page f, page < 2 ^ 35 → translate h.kernel.mem r page = some f → translate h'.kernel.mem r page = some f)
    (slots : ∀ pid, (h'.kernel.sched.slot .normal pid).tableAddr = r * 4096 →
      (h.kernel.sched.slot .normal pid).tableAddr = r * 4096 ∧
        (h'.kernel.sched.slot .normal pid).heapRange = (h.kernel.sched.slot .normal pid).heapRange) : h'.Pinned r pages := by
  intro page member
  obtain ⟨low, mapped, outside⟩ := pinned page member
  obtain ⟨f, there⟩ := Option.ne_none_iff_exists'.mp mapped
  refine ⟨low, ?_, fun pid table inside => ?_⟩
  · rw [kept page f low there]
    exact Option.some_ne_none f
  · obtain ⟨table', same⟩ := slots pid table
    exact outside pid table' ((show h'.live pid = h.live pid from same) ▸ inside)

/-- The end of a heap call. -/
theorem Pinned.after {ranges : List HeapRange} (pinned : h.Pinned r pages)
    (table : (h.kernel.sched.normalProcess pid).tableAddr = root * 4096)
    (sched : h'.kernel.sched = Kernel.withHeap h.kernel.sched pid ranges)
    (kept : ∀ page ∈ pages, translate h'.kernel.mem r page = translate h.kernel.mem r page)
    (own : r = root → ∀ page ∈ pages, page ∉ heapPages ranges) : h'.Pinned r pages := by
  intro page member
  obtain ⟨low, mapped, outside⟩ := pinned page member
  refine ⟨low, by rw [kept page member]; exact mapped, fun i table' inside => ?_⟩
  by_cases here : i = pid
  · subst here
    have slot : h'.kernel.sched.normalProcess i = { h.kernel.sched.normalProcess i with heapRange := ranges } := by
      rw [sched]
      exact Function.update_self ..
    have both : (h.kernel.sched.normalProcess i).tableAddr = r * 4096 := by
      rw [slot] at table'
      exact table'
    have same : r = root := Nat.eq_of_mul_eq_mul_right (by decide) (both.symm.trans table)
    rw [live, slot] at inside
    exact own same page member inside
  · have slot : h'.kernel.sched.normalProcess i = h.kernel.sched.normalProcess i := by
      rw [sched]
      exact Function.update_of_ne here ..
    rw [live, slot] at inside
    rw [slot] at table'
    exact outside i table' inside

theorem Pinned.allocate {size : UInt64} (pinned : h.Pinned r pages) (sound : h.Sound R) (known : r ∈ R) (member : root ∈ R)
    (found : Kernel.findProcess h.kernel.sched (root * 4096) = some pid)
    (run : h.call mapper.toPageMapper growth (root * 4096) (.allocate size) = some (result, h')) : h'.Pinned r pages := by
  have table := (found_table found).2.1
  have outside {page : Nat} (inside : page ∈ pages) (same : r = root) : page ∉ heapPages (h.live pid) :=
    (pinned page inside).2.2 pid (same ▸ table)
  cases result with
  | ok addr =>
    obtain ⟨_, positive, sched, buf, _, _, _, _, _, call, _⟩ := sound.granted member found run
    have new {page : Nat} (inside : page ∈ pages) (same : r = root) :
        page ∉ List.range' (Kernel.heapTop (h.live pid) / 4096) (divCeil size.toNat pageSize) := fun granted =>
      (pinned page inside).2.1 (same ▸ call.free page granted)
    refine pinned.after table sched (fun page inside => ?_) fun same page inside heap => ?_
    · exact call.kept r known page (pinned page inside).1 fun both => new inside both.1 both.2
    · rw [((sound.shaped pid).push positive).2] at heap
      exact heap.elim (outside inside same) (new inside same)
  | error e =>
    obtain ⟨_, _, _, call⟩ := sound.refused member found run
    refine pinned.after table (call.trail.stage.sched.trans (withHeap_self _ _).symm) (fun page inside => ?_)
      fun same page inside => outside inside same
    exact call.kept r known page (pinned page inside).1 fun both => both.2

theorem Pinned.deallocate {addr : UInt64} (pinned : h.Pinned r pages) (sound : h.Sound R) (known : r ∈ R) (member : root ∈ R)
    (found : Kernel.findProcess h.kernel.sched (root * 4096) = some pid)
    (run : h.call mapper.toPageMapper growth (root * 4096) (.deallocate addr) = some (result, h')) : h'.Pinned r pages := by
  have table := (found_table found).2.1
  rcases sound.freed member found addr with ⟨before, gone, after, k, live, _, out, freed⟩ | ⟨out, _⟩
  · cases Option.some.inj (out.symm.trans run)
    have perm : (h.live pid).Perm (gone :: (before ++ after)) := live ▸ List.perm_middle
    have aligned := (Shaped.cons_iff.mp ((sound.shaped pid).perm perm)).1.2.1
    have split : heapPages (h.live pid) = heapPages (before ++ after) ∪ _ :=
      (heapPages_perm perm).trans (heapPages_cons aligned)
    have outside {page : Nat} (inside : page ∈ pages) (same : r = root) : page ∉ heapPages (before ++ after) ∪ _ :=
      split ▸ (pinned page inside).2.2 pid (same ▸ table)
    refine pinned.after table freed.sched (fun page inside => ?_) fun same page inside heap => ?_
    · show translate k.mem r page = _
      rw [freed.pages r known page (pinned page inside).1, if_neg]
      rintro ⟨same, range⟩
      exact outside inside same (Or.inr ((mem_pages_iff aligned page).mpr range))
    · exact outside inside same (Or.inl heap)
  · cases Option.some.inj (out.symm.trans run)
    exact pinned

/-- No heap call takes such a page away. -/
theorem Pinned.call {c : MemorySyscall} (pinned : h.Pinned r pages) (sound : h.Sound R) (known : r ∈ R) (member : root ∈ R)
    (run : h.call mapper.toPageMapper growth (root * 4096) c = some (result, h')) : h'.Pinned r pages := by
  cases found : Kernel.findProcess h.kernel.sched (root * 4096) with
  | none =>
    obtain ⟨e, out⟩ := call_unknown mapper.toPageMapper growth c found
    cases Option.some.inj (out.symm.trans run)
    exact pinned
  | some pid =>
    cases c with
    | allocate size => exact pinned.allocate sound known member found run
    | deallocate addr => exact pinned.deallocate sound known member found run

end

/-- The places of a process that keep their frames: the four tables that lead to its
stack, and its pages. -/
def places (pages : List Nat) : List (List (Fin 512)) :=
  (List.range 4).map (fun depth => (pagePath 0x7fffffffe).take depth) ++ pages.map pagePath

section
variable {h : HeapKernel} {R : Set Nat} {r : Nat} {pages : List Nat}

theorem places_length (pages : List Nat) : (places pages).length = 4 + pages.length := by
  rw [places, List.length_append, List.length_map, List.length_map]
  rfl

theorem places_nodup (nodup : pages.Nodup) (low : ∀ page ∈ pages, page < 2 ^ 35) : (places pages).Nodup := by
  refine List.nodup_append.mpr ⟨by decide, ?_, fun p table q leaf => ?_⟩
  · refine nodup.map_on fun page member other member' same => ?_
    have bound := low page member
    have bound' := low other member'
    exact pagePath_inj (by omega) (by omega) same
  · rintro rfl
    obtain ⟨page, _, rfl⟩ := List.mem_map.mp leaf
    obtain ⟨depth, short, same⟩ := List.mem_map.mp table
    have length := congrArg List.length same
    rw [List.length_take] at length
    have bound := List.mem_range.mp short
    have four : (pagePath page).length = 4 := rfl
    omega

/-- All these places are in use. -/
theorem Pinned.walk (pinned : h.Pinned r pages) (stack : 0x7fffffffe ∈ pages)
    {p : List (Fin 512)} (member : p ∈ places pages) :
    LowPath p ∧ ∃ f, tableWalk h.kernel.mem r p = some f := by
  have leaf {page : Nat} (there : page ∈ pages) : LowPath (pagePath page) ∧
      ∃ f, tableWalk h.kernel.mem r (pagePath page) = some f :=
    ⟨pagePath_low (pinned page there).1, Option.ne_none_iff_exists'.mp (pinned page there).2.1⟩
  rcases List.mem_append.mp member with table | page
  · obtain ⟨depth, _, rfl⟩ := List.mem_map.mp table
    obtain ⟨low, f, reached⟩ := leaf stack
    rw [← List.take_append_drop depth (pagePath 0x7fffffffe)] at low reached
    rw [tableWalk, Forest.walk_append] at reached
    obtain ⟨t, first, _⟩ := Option.bind_eq_some_iff.mp reached
    exact ⟨lowPath_closed _ _ low, t, first⟩
  · obtain ⟨page, there, rfl⟩ := List.mem_map.mp page
    exact leaf there

/-- The processes that were ever created, each with its level-4 table and the pages that
it can never give back. -/
structure Lineage (h : HeapKernel) (R : Set Nat) (owners : List (Nat × List Nat)) : Prop where
  distinct : (owners.map Prod.fst).Nodup
  known : ∀ owner ∈ owners, owner.1 ∈ R
  pinned : ∀ owner ∈ owners, h.Pinned owner.1 owner.2
  pages : ∀ owner ∈ owners, owner.2.Nodup
  stack : ∀ owner ∈ owners, 0x7fffffffe ∈ owner.2

theorem Lineage.carry {h' : HeapKernel} {R' : Set Nat} {owners : List (Nat × List Nat)} (lineage : h.Lineage R owners)
    (grows : R ⊆ R') (kept : ∀ r ∈ R, ∀ pages, h.Pinned r pages → h'.Pinned r pages) : h'.Lineage R' owners where
  distinct := lineage.distinct
  known owner member := grows (lineage.known owner member)
  pinned owner member := kept _ (lineage.known owner member) _ (lineage.pinned owner member)
  pages := lineage.pages
  stack := lineage.stack

theorem Lineage.cons {owners : List (Nat × List Nat)} (lineage : h.Lineage R owners) (fresh : r ∉ owners.map Prod.fst)
    (member : r ∈ R) (pinned : h.Pinned r pages) (nodup : pages.Nodup) (stack : 0x7fffffffe ∈ pages) :
    h.Lineage R ((r, pages) :: owners) where
  distinct := List.nodup_cons.mpr ⟨fresh, lineage.distinct⟩
  known := List.forall_mem_cons.mpr ⟨member, lineage.known⟩
  pinned := List.forall_mem_cons.mpr ⟨pinned, lineage.pinned⟩
  pages := List.forall_mem_cons.mpr ⟨nodup, lineage.pages⟩
  stack := List.forall_mem_cons.mpr ⟨stack, lineage.stack⟩

/-- The frames of all these places are different ones. -/
theorem Lineage.frames {owners : List (Nat × List Nat)} (lineage : h.Lineage R owners) (sound : h.Sound R) :
    ∃ frames : List Nat, frames.Nodup ∧ frames.length = (owners.map fun owner => 4 + owner.2.length).sum ∧
      ∀ f ∈ frames, Forest.Placed pteFrame LowPath h.kernel.mem.entry R f := by
  let spots := owners.flatMap fun owner => (places owner.2).map fun p => (owner.1, p)
  have spot {r : Nat} {p : List (Fin 512)} (member : (r, p) ∈ spots) :
      r ∈ R ∧ LowPath p ∧ ∃ f, tableWalk h.kernel.mem r p = some f := by
    obtain ⟨owner, listed, inside⟩ := List.mem_flatMap.mp member
    obtain ⟨q, there, same⟩ := List.mem_map.mp inside
    cases same
    exact ⟨lineage.known owner listed, (lineage.pinned owner listed).walk (lineage.stack owner listed) there⟩
  have distinct : spots.Nodup := by
    refine List.nodup_flatMap.mpr ⟨fun owner listed => ?_, ?_⟩
    · have nodup := places_nodup (lineage.pages owner listed) fun page there => (lineage.pinned owner listed page there).1
      exact nodup.map fun _ _ same => (Prod.mk.inj same).2
    · refine (List.pairwise_map.mp lineage.distinct).imp fun apart => ?_
      intro x first second
      obtain ⟨_, _, rfl⟩ := List.mem_map.mp first
      obtain ⟨_, _, same⟩ := List.mem_map.mp second
      exact apart (Prod.mk.inj same).1.symm
  refine ⟨spots.map fun x => (tableWalk h.kernel.mem x.1 x.2).getD 0, ?_, ?_, fun f member => ?_⟩
  · refine distinct.map_on ?_
    rintro ⟨r, p⟩ first ⟨r', p'⟩ second same
    obtain ⟨known, low, f, reached⟩ := spot first
    obtain ⟨known', low', f', reached'⟩ := spot second
    rw [reached, reached', Option.getD_some, Option.getD_some] at same
    obtain ⟨rfl, rfl⟩ := sound.owned.spaces.exclusive known known' low low' reached (same ▸ reached')
    rfl
  · rw [List.length_map, List.length_flatMap]
    congr 1
    refine List.map_congr_left fun owner _ => ?_
    rw [List.length_map, places_length]
  · obtain ⟨⟨r, p⟩, listed, rfl⟩ := List.mem_map.mp member
    obtain ⟨known, low, f, reached⟩ := spot listed
    rw [reached, Option.getD_some]
    exact ⟨r, p, known, low, reached⟩

end

end HeapKernel

/-- The frames that a process of this image costs for ever: four tables for the stack,
its two pages, and the sections. -/
def Image.footprint (image : Image) : Nat := 6 + image.counts.sum

namespace TaskKernel
open Kernel HeapKernel

section
variable {t t' : TaskKernel} {R : Set Nat} {data : List UInt8} {image : Image} {root id r : Nat} {pages : List Nat} {m : Mem}
  {infos : List SectionData} {stackBase : Nat}

theorem layout_pages (placed : Placed data image.sections m root infos stackBase) :
    0x7fffffffe ∈ (layout infos stackBase).map Prod.fst ∧
      ((layout infos stackBase).map Prod.fst).length = 2 + image.counts.sum := by
  refine ⟨List.mem_map.mpr ⟨(0x7fffffffe, stackBase),
    List.mem_append_right _ (List.mem_cons_of_mem _ (List.mem_cons_self ..)), rfl⟩, ?_⟩
  rw [List.length_map, layout, List.length_append, List.length_reverse, imageLayout_length, infoCount_eq placed.loaded,
    Nat.add_comm]
  rfl

/-- The slot of a new process. -/
theorem Spawned.slots (spawned : Spawned R data image root id t t') (pid : Nat) :
    ((t'.kernel.sched.slot .normal pid).tableAddr = root * 4096 ∧ (t'.kernel.sched.slot .normal pid).heapRange = []) ∨
      t'.kernel.sched.slot .normal pid = t.kernel.sched.slot .normal pid := by
  have created := spawned.created
  by_cases new : .normal = image.procType ∧ pid = id
  · obtain ⟨typ, rfl⟩ := new
    rw [← typ] at created
    rw [created.slot]
    exact Or.inl ⟨rfl, rfl⟩
  · exact Or.inr (created.others .normal pid new)

theorem Spawned.pinned (spawned : Spawned R data image root id t t') (member : r ∈ R) (pinned : t.Pinned r pages) :
    t'.Pinned r pages := by
  refine pinned.other (spawned.pages r member) fun pid table => ?_
  rcases spawned.slots pid with ⟨new, _⟩ | old
  · have same : root = r := Nat.eq_of_mul_eq_mul_right (by decide) (new.symm.trans table)
    exact absurd member (same ▸ spawned.fresh)
  · rw [old] at table ⊢
    exact ⟨table, rfl⟩

/-- The pages that `create` maps are there to stay. -/
theorem Spawned.layout_pinned (spawned : Spawned R data image root id t t') (sound : t.Sound R)
    (placed : Placed data image.sections t'.kernel.mem root infos stackBase) :
    t'.Pinned root ((layout infos stackBase).map Prod.fst) := by
  intro page member
  obtain ⟨⟨page, f⟩, entry, rfl⟩ := List.mem_map.mp member
  have low := placed.low _ entry
  refine ⟨low, ?_, fun pid table inside => ?_⟩
  · rw [(placed.mapped page f low).mpr entry]
    exact Option.some_ne_none f
  · have table : (t'.kernel.sched.slot .normal pid).tableAddr = root * 4096 := table
    rcases spawned.slots pid with ⟨_, empty⟩ | old
    · rw [show t'.live pid = [] from empty] at inside
      obtain ⟨_, none, _⟩ := inside
      exact absurd none List.not_mem_nil
    · rw [old] at table
      have nonzero := spawned.follows.sound.heap.valid.stage.root_pos (Set.mem_insert root R)
      obtain ⟨r, space, same⟩ := sound.heap.slots.rooted .normal pid (by rw [table]; omega)
      have equal : root = r := Nat.eq_of_mul_eq_mul_right (by decide) (table.symm.trans same)
      exact absurd space.1 (equal ▸ spawned.fresh)

end

section
variable {t t' : TaskKernel} {R : Set Nat} {r : Nat} {pages : List Nat} {mapper : ExactMapper} {growth : VecGrowth}
  {parse : List UInt8 → Option Image}

/-- No event takes such a page away. -/
theorem Sound.pinned {tables : Set Nat} {event : HeapEvent} (sound : t.Sound R)
    (known : ∀ t ∈ tables, ∃ r ∈ R, t = r * 4096) (caller : event.By tables)
    (run : t.step mapper.toPageMapper growth parse event = some t') (member : r ∈ R) (pinned : t.Pinned r pages) :
    t'.Pinned r pages := by
  have valid := sound.heap.valid
  cases event with
  | create data priority =>
    obtain ⟨⟨result, _⟩, out, rfl⟩ := Option.map_eq_some_iff.mp run
    cases result with
    | ok done =>
      obtain ⟨_, _, _, _, spawned⟩ := sound.spawned out
      exact spawned.pinned member pinned
    | error e =>
      obtain ⟨same, kept, _⟩ := (create_wp mapper.toPageMapper growth parse data priority sound).error out
      exact pinned.other (kept r member) fun pid table => by rw [same] at table ⊢; exact ⟨table, rfl⟩
  | remove typ index =>
    obtain ⟨_, stepped, rfl⟩ := Option.map_eq_some_iff.mp run
    obtain ⟨k, out, rfl⟩ := Option.map_eq_some_iff.mp stepped
    refine of_run (P := fun k => HeapKernel.Pinned { t.toHeapKernel with kernel := k } r pages)
      ((remove_spares mapper.toPageMapper typ index valid).mono ?_ fun _ k same => same ▸ pinned) out
    rintro _ k ⟨spares, removed⟩
    refine pinned.other (spares.pages r member) fun pid table => ?_
    by_cases here : .normal = typ ∧ pid = index
    · obtain ⟨rfl, rfl⟩ := here
      rw [removed.slot] at table ⊢
      exact ⟨table, rfl⟩
    · rw [removed.others .normal pid here] at table ⊢
      exact ⟨table, rfl⟩
  | memory userTable c =>
    obtain ⟨root, space, rfl⟩ := known userTable caller
    obtain ⟨_, stepped, rfl⟩ := Option.map_eq_some_iff.mp run
    obtain ⟨⟨result, h⟩, out, rfl⟩ := Option.map_eq_some_iff.mp stepped
    exact pinned.call sound.heap member space out
  | pagefault pml4 addr =>
    obtain ⟨root, space, rfl⟩ := known pml4 caller
    obtain ⟨_, stepped, rfl⟩ := Option.map_eq_some_iff.mp run
    obtain ⟨k, out, rfl⟩ := Option.map_eq_some_iff.mp stepped
    refine of_run (P := fun k => HeapKernel.Pinned { t.toHeapKernel with kernel := k } r pages)
      ((pagefault_spares mapper.toPageMapper addr valid space).mono ?_ fun _ _ => id) out
    rintro _ k ⟨spares, same⟩
    exact pinned.other (spares.pages r member) fun pid table => by rw [same] at table ⊢; exact ⟨table, rfl⟩
  | tick regs cr3 =>
    obtain ⟨_, stepped, rfl⟩ := Option.map_eq_some_iff.mp run
    obtain ⟨k, out, rfl⟩ := Option.map_eq_some_iff.mp stepped
    obtain ⟨s, ticked, rfl⟩ := Option.map_eq_some_iff.mp out
    refine pinned.other (fun _ _ _ => id) fun pid table => ?_
    obtain ⟨slot, _, heap⟩ := tick_slot_kept ticked .normal pid
    exact ⟨slot ▸ table, heap⟩

theorem fresh_vectors (start : Kernel) : (fresh start).held ++ (fresh start).queued = [] := by
  have unbuffered : (fresh start).held = [] := by
    unfold held bufferFrames
    exact List.flatMap_eq_nil_iff.mpr fun _ _ => show ({} : Buffer).frames 16 = [] from rfl
  rw [unbuffered, fresh_queued, List.append_nil]

/-- The frames of the processes come out of those that were free at the start. -/
theorem Follows.account {start : Kernel} {map : MemoryMap} {frames : List Nat} (boot : start.Boot map)
    (follows : Follows ∅ R (fresh start) t) (nodup : frames.Nodup)
    (placed : ∀ f ∈ frames, Forest.Placed pteFrame LowPath t.kernel.mem.entry R f) :
    t.kernel.alloc.freeFrames + frames.length ≤ start.alloc.freeFrames := by
  have edits := follows.edits
  rw [fresh_vectors] at edits
  have sound := follows.sound.heap
  have size : t.kernel.alloc.maxPage = start.alloc.maxPage := congrArg Prod.fst edits.shape
  have boundary := FrameAlloc.boundary_of_shape edits.shape
  have old {q : Nat} (taken : start.alloc.Taken q) : Bystander (t.kernel.snapshot R (t.held ++ t.queued)) q := by
    refine edits.bystander boot.valid.stage.owns ⟨taken, fun placed => ?_, List.not_mem_nil⟩
    obtain ⟨_, _, none, _⟩ := placed
    exact none
  have taken {f : Nat} (member : f ∈ frames) : t.kernel.alloc.Taken f := sound.owned.spaces.placed f (placed f member)
  have fresh {f : Nat} (member : f ∈ frames) : ¬FrameAlloc.Used start.alloc.bitmap f := fun used =>
    (old ⟨used, boundary ▸ (taken member).2⟩).unplaced (placed f member)
  have apart : Disjoint t.kernel.alloc.freeSet frames.toFinset := by
    refine Finset.disjoint_left.mpr fun q free member => ?_
    exact (FrameAlloc.mem_freeSet.mp free).2 (taken (List.mem_toFinset.mp member)).1
  have inside : t.kernel.alloc.freeSet ∪ frames.toFinset ⊆ start.alloc.freeSet := by
    intro q member
    rw [FrameAlloc.mem_freeSet]
    rcases Finset.mem_union.mp member with free | listed
    · obtain ⟨bound, unused⟩ := FrameAlloc.mem_freeSet.mp free
      refine ⟨size ▸ bound, fun used => unused ?_⟩
      by_cases low : q < t.kernel.alloc.reserved + t.kernel.alloc.selfUsedPage
      · exact sound.owned.guarded.marked q low
      · exact (old ⟨used, boundary ▸ Nat.le_of_not_lt low⟩).taken.1
    · have listed := List.mem_toFinset.mp listed
      refine ⟨Nat.lt_of_not_le fun above => fresh listed (edits.beyond above (taken listed).1), fresh listed⟩
  have bound := Finset.card_le_card inside
  rw [Finset.card_union_of_disjoint apart, List.toFinset_card_of_nodup nodup] at bound
  exact bound

end

section
variable (mapper : PageMapper) (growth : VecGrowth) (parse : List UInt8 → Option Image)

/-- All runs, with the images of the processes that were created, the last one first. -/
inductive Births (start : TaskKernel) : TaskKernel → Set Nat → List Image → Prop
  | boot : Births start start ∅ []
  | build {t t' tables images typ} : Births start t tables images →
      (TaskKernel.build typ : Prog TaskKernel Error Unit) t = some (.ok (), t') → Births start t' tables images
  | create {t t' tables images data priority image} : Births start t tables images → parse data = some image →
      TaskKernel.create mapper growth parse data priority t = some (.ok (), t') →
      Births start t' (tables ∪ t'.kernel.tables) (image :: images)
  | event {t t' tables images event} : Births start t tables images → event.By tables →
      t.step mapper growth parse event = some t' → Births start t' (tables ∪ t'.kernel.tables) images

end

section
variable {start : Kernel} {t : TaskKernel} {mapper : ExactMapper} {growth : VecGrowth}
  {parse : List UInt8 → Option Image} {map : MemoryMap} {tables : Set Nat} {images : List Image}

theorem Births.lineage (boot : start.Boot map)
    (run : Births mapper.toPageMapper growth parse (fresh start) t tables images) :
    ∃ R owners, Follows ∅ R (fresh start) t ∧ (∀ t ∈ tables, ∃ r ∈ R, t = r * 4096) ∧ t.Lineage R owners ∧
      (owners.map fun owner => 4 + owner.2.length) = images.map Image.footprint := by
  induction run with
  | boot =>
    exact ⟨∅, [], (Sound.boot boot).follows, fun _ none => none.elim,
      ⟨List.nodup_nil, fun _ none => (nomatch none), fun _ none => (nomatch none), fun _ none => (nomatch none),
        fun _ none => nomatch none⟩, rfl⟩
  | build _ built ih =>
    obtain ⟨R, owners, follows, known, lineage, sizes⟩ := ih
    obtain ⟨next, sched, mem⟩ := (build_wp (E := fun _ _ => True) _ follows.sound).ok built
    refine ⟨R, owners, follows.trans next, known, lineage.carry next.grows fun r _ pages pinned => ?_, sizes⟩
    refine pinned.other (fun page f _ there => by rw [mem]; exact there) fun pid table => ?_
    rw [sched] at table ⊢
    exact ⟨table, rfl⟩
  | create _ parsed created ih =>
    obtain ⟨R, owners, follows, known, lineage, sizes⟩ := ih
    obtain ⟨image, root, id, parsed', spawned⟩ := follows.sound.spawned created
    cases Option.some.inj (parsed.symm.trans parsed')
    obtain ⟨infos, stackBase, placed⟩ := spawned.placed
    have pinned := spawned.layout_pinned follows.sound placed
    obtain ⟨stack, length⟩ := layout_pages placed
    have next := spawned.follows
    have later := lineage.carry next.grows fun r member pages => spawned.pinned member
    have fresh : root ∉ owners.map Prod.fst := fun listed => by
      obtain ⟨owner, member, same⟩ := List.mem_map.mp listed
      have same : owner.1 = root := same
      exact spawned.fresh (same ▸ lineage.known owner member)
    refine ⟨insert root R, _, follows.trans next, next.sound.heap.valid.known_tables next.grows known,
      later.cons fresh (Set.mem_insert root R) pinned placed.distinct stack, ?_⟩
    rw [List.map_cons, List.map_cons, sizes, length, Image.footprint]
    congr 1
    omega
  | event _ caller stepped ih =>
    obtain ⟨R, owners, follows, known, lineage, sizes⟩ := ih
    obtain ⟨R', next⟩ := follows.sound.step known caller stepped
    exact ⟨R', owners, follows.trans next, next.sound.heap.valid.known_tables next.grows known,
      lineage.carry next.grows fun r member pages => follows.sound.pinned known caller stepped member, sizes⟩

/-- Processes are paid for once and for all. However they end, and whatever they do with
their heaps, the frames of all processes that were ever created are missing from those
that were free at the start. So there are only so many creations in the life of the
machine, also if every process is removed again. -/
theorem footprint_never_returned (boot : start.Boot map)
    (run : Births mapper.toPageMapper growth parse (fresh start) t tables images) :
    t.kernel.alloc.freeFrames + (images.map Image.footprint).sum ≤ start.alloc.freeFrames := by
  obtain ⟨R, owners, follows, _, lineage, sizes⟩ := run.lineage boot
  obtain ⟨frames, nodup, length, placed⟩ := lineage.frames follows.sound.heap
  rw [← sizes, ← length]
  exact follows.account boot nodup placed

/-- A process of one byte costs seven frames, also after its removal. -/
theorem footprint_never_returned_removed_process :
    ∃ t tables images id,
      Births FourLevel.exactMapper.toPageMapper .amortized flatParse (fresh (ramKernel 0x218c)) t tables images ∧
      images.length = 1 ∧ (t.kernel.sched.slot .normal id).present = false ∧
      t.kernel.alloc.freeFrames + 7 ≤ (ramKernel 0x218c).alloc.freeFrames := by
  have boot : (ramKernel 0x218c).Boot [⟨0, 0x218c000, .freeRAM⟩] :=
    ramKernel_boot (by decide) (by decide) (by decide)
  obtain ⟨t, created, _⟩ := create_first_process boot (by decide) (by decide)
  obtain ⟨image, parsed, cost⟩ : ∃ image, flatParse [0x90] = some image ∧ image.footprint = 7 := ⟨_, rfl, rfl⟩
  obtain ⟨_, root, id, same, spawned⟩ := (Sound.boot boot).spawned created
  cases Option.some.inj same
  have slot : t.kernel.sched.slot .normal id = Slot.initial .normal (root * 4096) := spawned.created.slot
  have present : (t.kernel.sched.normalProcess id).present = true := congrArg Slot.present slot
  have bound := Nat.not_le.mpr spawned.created.bound
  have removable : (ProkaKernel.remove t.kernel.sched .normal id).isOk = true := by
    simp [ProkaKernel.remove, removeNormal, present, bound, Except.isOk, Except.toBool]
  obtain ⟨k, second, removed⟩ := Kernel.remove_ok FourLevel.exactMapper.toPageMapper removable
  have gone : t.step FourLevel.exactMapper.toPageMapper .amortized flatParse (.remove .normal id) =
      some { t with kernel := k } :=
    congrArg (fun out => ((out.map Prod.snd).map fun k => { t.toHeapKernel with kernel := k }).map fun h =>
      { t with toHeapKernel := h }) second
  have births := (Births.create .boot parsed created).event (show HeapEvent.By _ (.remove .normal id) from trivial) gone
  have account := footprint_never_returned boot births
  rw [List.map_cons, cost] at account
  exact ⟨_, _, _, id, births, rfl, congrArg Slot.present removed.slot, account⟩

end

end TaskKernel

end ProkaKernel
