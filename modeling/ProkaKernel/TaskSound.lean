import ProkaKernel.TaskKernel
import ProkaKernel.VecRequests

namespace ProkaKernel

/-- Pages that are mapped stay mapped. -/
def KeepsPages (R : Set Nat) (m m' : Mem) : Prop :=
  ∀ r ∈ R, ∀ page f, page < 2 ^ 35 → translate m r page = some f → translate m' r page = some f

section
variable {R : Set Nat} {m m' m'' : Mem}

theorem KeepsPages.refl : KeepsPages R m m := fun _ _ _ _ _ => id

theorem KeepsPages.trans (first : KeepsPages R m m') (second : KeepsPages R m' m'') : KeepsPages R m m'' :=
  fun r member page f low there => second r member page f low (first r member page f low there)

end

section
variable {c : Snapshot} {s : Sched} {R : Set Nat} {pend : List Nat} {k : Kernel} {size : Nat} {buf : Buffer}

theorem Trail.freeBuffer (trail : Trail True c s R (buf.frames size ++ pend) k) :
    Trail True c s R pend (k.freeBuffer size buf) := by
  unfold Kernel.freeBuffer
  rw [Kernel.heap_dealloc]
  exact trail.releaseRun

end

namespace Kernel
open Prog

section Load
variable {ε : Type} {E : ε → Kernel → Prop} {c : Snapshot} {s : Sched} {R : Set Nat} {pend : List Nat} {k : Kernel}
  {size : Nat} {buf : Buffer} (growth : VecGrowth)

/-- A push leaves the vector with the frames of its buffer. -/
theorem reserve_trail (len : Nat) (trail : Trail True c s R (buf.frames size ++ pend) k) :
    wp (reserve growth size len buf) (fun buf' k' => Trail True c s R (buf'.frames size ++ pend) k' ∧ k'.mem = k.mem) E k := by
  unfold reserve
  split
  · exact wp_pure ⟨trail, rfl⟩
  · refine wp_bind (wp_newBuffer fun f a run => wp_bind (wp_write (wp_pure ⟨?_, rfl⟩)))
    have taken := (trail.allocate run).perm (List.perm_append_comm_assoc ..)
    rw [Buffer.frames_new]
    exact taken.freeBuffer

/-- One more section is copied into its frames. -/
theorem section_loaded {data bytes : List UInt8} {sec : Section} {old : List Section} {infos : List SectionData}
    {info : SectionData} {f : Nat} (made : info = ⟨f * 4096, divCeil sec.size pageSize, sec.execable⟩)
    (trail : Trail True c s R (pend ++ (infos.flatMap SectionData.frames ++ List.range' f (divCeil sec.size pageSize))) k)
    (loaded : List.Forall₂ (Loaded data k.mem) old infos) (sliced : slice data sec.base sec.size = some bytes) :
    Trail True c s R ((infos ++ [info]).flatMap SectionData.frames ++ pend)
        { k with mem := k.mem.copy (f * 4096) bytes } ∧
      List.Forall₂ (Loaded data (k.mem.copy (f * 4096) bytes)) (old ++ [sec]) (infos ++ [info]) ∧
      KeepsPages R k.mem (k.mem.copy (f * 4096) bytes) := by
  have touched (x : Nat) (here : f * 4096 ≤ x ∧ x < f * 4096 + sec.size) :
      x / 4096 ∈ List.range' f (divCeil sec.size pageSize) := by
    have pages := divCeil_page sec.size
    exact List.mem_range'_1.mpr ⟨by omega, by omega⟩
  have frames : info.frames = List.range' f (divCeil sec.size pageSize) := by
    rw [made, SectionData.frames, Nat.mul_div_cancel f (by decide)]
  obtain ⟨trail1, first, outside⟩ := copied_loaded trail
    (fun _ inside => List.mem_append_right _ (List.mem_append_right _ inside)) sliced
  rw [← made] at first
  refine ⟨?_, List.rel_append (Loaded.congr_all loaded fun x before => outside x fun here => ?_) (.cons first .nil), ?_⟩
  · rw [List.flatMap_append, List.flatMap_singleton, frames]
    exact trail1.perm List.perm_append_comm
  · have nodup := (List.nodup_append.mp (List.nodup_append.mp trail.stage.nodup).2.1).2.2
    exact nodup _ before _ (touched x here) rfl
  · intro r member page g low there
    refine (trail.stage.owns.walk_filled (fun x beside => outside x fun here => beside ?_) member
      (pagePath_low low)).trans there
    exact List.mem_append_right _ (List.mem_append_right _ (touched x here))

theorem loadInto_wp (data : List UInt8) (secs : List Section) {old : List Section} {infos : List SectionData}
    (trail : Trail True c s R (infos.flatMap SectionData.frames ++ buf.frames 24) k)
    (loaded : List.Forall₂ (Loaded data k.mem) old infos) :
    wp (loadInto growth data secs infos buf)
      (fun out k' => Trail True c s R (out.1.flatMap SectionData.frames ++ out.2.frames 24) k' ∧
        List.Forall₂ (Loaded data k'.mem) (old ++ secs.filter Section.loadable) out.1 ∧ KeepsPages R k.mem k'.mem)
      (fun _ k' => Trail True c s R [] k' ∧ KeepsPages R k.mem k'.mem) k := by
  induction secs generalizing old infos buf k with
  | nil => exact wp_pure ⟨trail, (List.append_nil old).symm ▸ loaded, .refl⟩
  | cons sec rest ih =>
    unfold loadInto
    split
    · rename_i loadable
      refine wp_bind (wp_allocateContiguous (fun _ => ?_) fun f a run => ?_)
      · exact wp_bind (wp_write (wp_fail ⟨(trail.perm List.perm_append_comm).freeBuffer.forget, .refl⟩))
      · have order : (List.range' f (divCeil sec.size pageSize) ++ (infos.flatMap SectionData.frames ++ buf.frames 24)).Perm
            (buf.frames 24 ++ (infos.flatMap SectionData.frames ++ List.range' f (divCeil sec.size pageSize))) := by
          rw [← List.append_assoc]
          exact List.perm_append_comm.trans ((List.Perm.refl _).append List.perm_append_comm)
        refine wp_bind ((reserve_trail growth infos.length ((trail.allocate run).perm order)).mono ?_ fun _ _ => id)
        rintro buf' k1 ⟨trail1, same⟩
        change k1.mem = k.mem at same
        refine wp_bind (wp_unwrap fun bytes sliced => wp_bind (wp_write ?_))
        have kept : List.Forall₂ (Loaded data k1.mem) old infos := by
          rw [same]
          exact loaded
        have made : (⟨f * 4096, divCeil sec.size pageSize, sec.execable⟩ : SectionData) = _ := rfl
        obtain ⟨trail2, loaded2, pages2⟩ := section_loaded made trail1 kept sliced
        have pages : KeepsPages R k.mem (k1.mem.copy (f * 4096) bytes) := fun r member page g low there =>
          pages2 r member page g low (by rw [same]; exact there)
        refine (ih trail2 loaded2).mono ?_ ?_
        · rintro out k2 ⟨trail3, loaded3, pages3⟩
          rw [List.filter_cons_of_pos loadable, List.append_cons]
          exact ⟨trail3, loaded3, pages.trans pages3⟩
        · rintro _ k2 ⟨trail3, pages3⟩
          exact ⟨trail3, pages.trans pages3⟩
    · rename_i skipped
      rw [List.filter_cons_of_neg skipped]
      exact ih trail loaded

theorem loadInto_first (data : List UInt8) (secs : List Section) (stage : Stage s R [] k) :
    wp (loadInto growth data secs [] {})
      (fun out k' => Trail True (k.snapshot R []) s R (out.1.flatMap SectionData.frames ++ out.2.frames 24) k' ∧
        List.Forall₂ (Loaded data k'.mem) (secs.filter Section.loadable) out.1 ∧ KeepsPages R k.mem k'.mem)
      (fun _ k' => Trail True (k.snapshot R []) s R [] k' ∧ KeepsPages R k.mem k'.mem) k := by
  have start : Trail True (k.snapshot R []) s R (([] : List SectionData).flatMap SectionData.frames ++
      ({} : Buffer).frames 24) k := stage.trail
  exact loadInto_wp growth data secs start .nil

/-- The mapping loops, between the life of `section_info` and its end. -/
theorem space_freed {k1 k2 : Kernel} {R' : Set Nat} {frames : List Nat}
    (before : Trail True (k.snapshot R []) k.sched R (frames ++ buf.frames size) k1)
    (after : Trail False (k1.snapshot R frames) k.sched R' [] k2) :
    Trail True (k.snapshot R []) k.sched R' [] (k2.freeBuffer size buf) ∧ KeepsPages R k1.mem k2.mem := by
  have held : Stage k1.sched R (frames ++ buf.frames size) k1 := before.stage.sched.symm ▸ before.stage
  have wider : Trail True (k1.snapshot R frames) k.sched R' [] k2 := ⟨after.stage, after.edits.mono False.elim id⟩
  have framed : Trail True (k1.snapshot R (frames ++ buf.frames size)) k.sched R' (buf.frames size ++ []) k2 := by
    rw [List.append_nil]
    exact wider.frame held
  refine ⟨framed.freeBuffer.prepend before.edits, fun r member page f low there => ?_⟩
  exact after.edits.leaf (held.owns.restrict (fun _ => id) fun _ => List.mem_append_left _) member low there

/-- The address space of a new process, made in free frames. -/
structure ImageSpace (R : Set Nat) (data : List UInt8) (image : Image) (root : Nat) (k k' : Kernel) : Prop where
  trail : Trail True (k.snapshot R []) k.sched (insert root R) [] k'
  fresh : root ∉ R
  upper : UpperHalf image.procType k'.mem root
  pages : KeepsPages R k.mem k'.mem
  placed : ∃ infos stackBase, Placed data image.sections k'.mem root infos stackBase

theorem buildSpace_wp (mapper : PageMapper) (data : List UInt8) (image : Image) (stage : Stage k.sched R [] k) :
    wp (buildSpace mapper growth data image) (fun root k' => ImageSpace R data image root k k')
      (fun _ k' => ∃ R', R ⊆ R' ∧ Trail True (k.snapshot R []) k.sched R' [] k' ∧ KeepsPages R k.mem k'.mem) k := by
  refine wp_bind ((loadInto_first growth data image.sections stage).mono ?_ fun _ _ failed => ⟨R, fun _ => id, failed⟩)
  rintro ⟨infos, buf⟩ k1 ⟨trail1, loaded, pages1⟩
  have inner : Stage k.sched R (infos.flatMap SectionData.frames) k1 := (trail1.perm List.perm_append_comm).discard.stage
  have start : Trail False (k1.snapshot R (infos.flatMap SectionData.frames)) k.sched R _ k1 := inner.trail
  refine wp_ensure ((makeSpace_wp mapper image.procType start loaded).mono ?_ ?_)
  · rintro root k2 ⟨trail2, stackBase, space⟩
    obtain ⟨trail3, pages2⟩ := space_freed trail1 trail2
    exact ⟨trail3, space.fresh, space.upper, pages1.trans pages2, infos, stackBase, space.placed⟩
  · rintro _ k2 ⟨R', grows, trail2⟩
    obtain ⟨trail3, pages2⟩ := space_freed trail1 trail2
    exact ⟨R', grows, trail3, pages1.trans pages2⟩

end Load

end Kernel

namespace HeapKernel

/-- Only the allocator has changed. -/
theorem Sound.realloc {h : HeapKernel} {R : Set Nat} {k : Kernel} (sound : h.Sound R) (stage : Stage h.kernel.sched R h.held k)
    (same : k.mem = h.kernel.mem) (shape : k.alloc.shape = h.kernel.alloc.shape) : Sound { h with kernel := k } R := by
  obtain ⟨m, a, s⟩ := k
  obtain rfl : s = h.kernel.sched := stage.sched
  obtain rfl : m = h.kernel.mem := same
  exact ⟨stage, sound.slots, sound.small, sound.sized.of_shape shape, sound.shaped, sound.mapped⟩

end HeapKernel

namespace TaskKernel
open Kernel Prog

/-- The frames of the queues. -/
def queued (t : TaskKernel) : List Nat := (t.queues .normal).frames 8 ++ (t.queues .driver).frames 8

/-- What holds between any two events: the state is sound, and the frames of
the queues are beside everything else. -/
structure Sound (t : TaskKernel) (R : Set Nat) : Prop where
  heap : t.toHeapKernel.Sound R
  stage : Stage t.kernel.sched R (t.held ++ t.queued) t.kernel

section
variable {t t' : TaskKernel} {R R' : Set Nat} {k : Kernel} {typ : ProcType}

theorem queued_perm (t : TaskKernel) (typ : ProcType) :
    t.queued.Perm ((t.queues typ).frames 8 ++ (t.queues typ.other).frames 8) := by
  cases typ with
  | normal => exact .refl _
  | driver => exact List.perm_append_comm

theorem queued_update (t : TaskKernel) (typ : ProcType) (buf : Buffer) :
    (queued { t with queues := Function.update t.queues typ buf }).Perm (buf.frames 8 ++ (t.queues typ.other).frames 8) := by
  have perm := queued_perm { t with queues := Function.update t.queues typ buf } typ
  have other : typ.other ≠ typ := by cases typ <;> decide
  dsimp only at perm
  rw [Function.update_self, Function.update_of_ne other] at perm
  exact perm

theorem fresh_queued (start : Kernel) : (fresh start).queued = [] := by
  have empty : ({} : Buffer).frames 8 = [] := rfl
  show ({} : Buffer).frames 8 ++ ({} : Buffer).frames 8 = []
  rw [empty, List.append_nil]

/-- The machine before the first process. -/
theorem Sound.boot {map : MemoryMap} {start : Kernel} (boot : start.Boot map) : (fresh start).Sound ∅ := by
  have sound := HeapKernel.Sound.boot boot
  refine ⟨sound, ?_⟩
  rw [fresh_queued, List.append_nil]
  exact sound.stage

theorem Sound.trail (sound : t.Sound R) :
    Trail True (t.kernel.snapshot R (t.held ++ t.queued)) t.kernel.sched R (t.held ++ t.queued) t.kernel :=
  sound.stage.trail

/-- What an event does: the state stays sound, and the frames change hands by
edits only. -/
structure Follows (R R' : Set Nat) (t t' : TaskKernel) : Prop where
  grows : R ⊆ R'
  sound : t'.Sound R'
  edits : Edits True False (t.kernel.snapshot R (t.held ++ t.queued)) (t'.kernel.snapshot R' (t'.held ++ t'.queued))

theorem Sound.follows (sound : t.Sound R) : Follows R R t t := ⟨fun _ => id, sound, .refl⟩

theorem Follows.trans {t'' : TaskKernel} {R'' : Set Nat} (first : Follows R R' t t') (second : Follows R' R'' t' t'') :
    Follows R R'' t t'' :=
  ⟨first.grows.trans second.grows, second.sound, first.edits.trans second.edits⟩

/-- An event that leaves all vectors alone. -/
theorem Sound.carried (sound : t.Sound R) (grows : R ⊆ R') (heap : HeapKernel.Sound { t.toHeapKernel with kernel := k } R')
    (edits : Edits True False (t.kernel.snapshot R []) (k.snapshot R' [])) : Follows R R' t { t with kernel := k } := by
  have trail : Trail True (t.kernel.snapshot R []) k.sched R' [] k := ⟨heap.valid.stage, edits⟩
  have stage : Stage t.kernel.sched R ([] ++ (t.held ++ t.queued)) t.kernel := sound.stage
  have framed := trail.frame stage
  exact ⟨grows, ⟨heap, framed.stage⟩, framed.edits⟩

/-- Only the allocator and the queues have changed. -/
theorem Sound.realloc {queues : ProcType → Buffer} {built : ProcType → Bool} (sound : t.Sound R)
    (trail : Trail True (t.kernel.snapshot R (t.held ++ t.queued)) t.kernel.sched R
      (t.held ++ queued { t with queues := queues }) k) (same : k.mem = t.kernel.mem) :
    Follows R R t { t with kernel := k, queues := queues, built := built } := by
  have stage := trail.stage
  have sched : k.sched = t.kernel.sched := stage.sched
  refine ⟨fun _ => id, ⟨sound.heap.realloc ?_ same trail.edits.shape, sched.symm ▸ stage⟩, trail.edits⟩
  exact ⟨stage.owns.restrict (fun _ => id) fun _ => List.mem_append_left _, (List.nodup_append.mp stage.nodup).1, sched,
    stage.reserved⟩

theorem build_wp {ε : Type} {E : ε → TaskKernel → Prop} (typ : ProcType) (sound : t.Sound R) :
    wp (build typ) (fun _ t' => Follows R R t t' ∧ t'.kernel.sched = t.kernel.sched ∧ t'.kernel.mem = t.kernel.mem) E t := by
  refine wp_bind (wp_read ?_)
  split
  · exact wp_pure ⟨sound.follows, rfl, rfl⟩
  · refine wp_bind (wp_within (wp_newBuffer fun f a run => wp_write ⟨?_, rfl, rfl⟩))
    exact sound.realloc (sound.trail.allocate run).discard rfl

/-- The buffer of a slot is given back. -/
theorem Sound.drop {pid : Nat} (sound : t.Sound R) (bound : pid < maxPs) :
    Follows R R t { t with toHeapKernel := t.replace t.kernel pid } := by
  have split : (t.held ++ t.queued).Perm ((t.buffers pid).frames 16 ++ (t.heldBut pid ++ t.queued)) := by
    rw [← List.append_assoc]
    exact (HeapKernel.held_perm bound).append_right _
  have order := HeapKernel.held_update (h := t.toHeapKernel) bound (t.kernel.freeBuffer 16 (t.buffers pid)) ({} : Buffer)
  have trail := (sound.trail.perm split).freeBuffer.perm (order.symm.append_right t.queued)
  exact ⟨fun _ => id, ⟨sound.heap.drop bound, trail.stage⟩, trail.edits⟩

/-- One more process is put into a queue. -/
theorem Sound.push {E : Error → TaskKernel → Prop} (growth : VecGrowth) (typ : ProcType) (len : Nat) (sound : t.Sound R) :
    wp (onKernel (reserve growth 8 len (t.queues typ)))
      (fun queue t' => ∃ k, t' = { t with kernel := k } ∧ k.sched = t.kernel.sched ∧ k.mem = t.kernel.mem ∧
        Follows R R t { t with kernel := k, queues := Function.update t.queues typ queue }) E t := by
  have split : (t.held ++ t.queued).Perm ((t.queues typ).frames 8 ++ ((t.queues typ.other).frames 8 ++ t.held)) := by
    refine List.perm_append_comm.trans ?_
    rw [← List.append_assoc]
    exact (t.queued_perm typ).append_right _
  refine wp_within ((reserve_trail growth len (sound.trail.perm split)).mono ?_ fun _ _ => id)
  rintro queue k ⟨trail, same⟩
  refine ⟨k, rfl, trail.stage.sched, same, sound.realloc (trail.perm ?_) same⟩
  rw [← List.append_assoc]
  exact ((queued_update t typ queue).symm.append_right _).trans List.perm_append_comm

/-- The memory of a new address space, before its process is in the table. -/
theorem Sound.space (sound : t.Sound R) (grows : R ⊆ R')
    (trail : Trail True (t.kernel.snapshot R []) t.kernel.sched R' [] k) (pages : KeepsPages R t.kernel.mem k.mem) :
    Follows R R' t { t with kernel := k } := by
  have goes := sound.heap.valid.goes grows trail
  refine sound.carried grows (sound.heap.other goes ∅ pages (fun _ none => none.elim) fun pid _ => ?_) goes.edits
  rw [trail.stage.sched]
  exact ⟨rfl, rfl⟩

theorem Sound.enrolled {root slot : Nat} {s : Sched} (sound : t.Sound (insert root R))
    (slots : Slots t.kernel.sched (spacesFor t.kernel.mem R)) (new : root ∉ R) (upper : UpperHalf typ t.kernel.mem root)
    (created : Created t.kernel.sched s typ slot (root * 4096)) :
    Follows (insert root R) (insert root R) t { t with kernel := { t.kernel with sched := s } } := by
  have member := Set.mem_insert root R
  have stage := sound.heap.valid.stage
  have goes : Goes (insert root R) (insert root R) t.kernel { t.kernel with sched := s } :=
    ⟨fun _ => id, ⟨stage.resched, slots.created created (fun _ r space => ⟨Set.mem_insert_of_mem root space.1, space.2⟩)
      (fun _ space => new space.1) ⟨member, upper⟩ (stage.root_pos member)⟩, .refl⟩
  refine sound.carried (fun _ => id) ?_ .refl
  cases typ with
  | normal =>
    refine sound.heap.other goes {slot} (fun _ _ _ _ _ => id) (fun pid here => ?_) fun pid other => ?_
    · rw [show pid = slot from here]
      exact congrArg Slot.heapRange created.slot
    · rw [show s.slot .normal pid = _ from created.others .normal pid fun both => other both.2]
      exact ⟨rfl, rfl⟩
  | driver =>
    refine sound.heap.other goes ∅ (fun _ _ _ _ _ => id) (fun _ none => none.elim) fun pid _ => ?_
    rw [show s.slot .normal pid = _ from created.others .normal pid fun both => nomatch both.1]
    exact ⟨rfl, rfl⟩

/-- The slot of the newest process is its own. -/
theorem Sound.dropOld {slot : Nat} (sound : t.Sound R) (newest : t.kernel.newestSlot typ = slot) (bound : slot < maxPs) :
    Follows R R t (dropOld typ t) ∧ (typ = .normal → (dropOld typ t).buffers slot = {}) := by
  subst newest
  cases typ with
  | normal => exact ⟨sound.drop bound, fun _ => Function.update_self ..⟩
  | driver => exact ⟨sound.follows, fun other => nomatch other⟩

theorem dropOld_same (typ : ProcType) (t : TaskKernel) : (dropOld typ t).queues = t.queues ∧
    (dropOld typ t).kernel.sched = t.kernel.sched ∧ (dropOld typ t).kernel.mem = t.kernel.mem := by
  cases typ <;> exact ⟨rfl, rfl, rfl⟩

/-- A process has come into the table and into its queue. -/
structure Enlisted (typ : ProcType) (root id : Nat) (t t' : TaskKernel) : Prop where
  created : Created t.kernel.sched t'.kernel.sched typ id (root * 4096)
  mem : t'.kernel.mem = t.kernel.mem
  empty : typ = .normal → t'.buffers id = {}

theorem enlist_wp {root : Nat} (growth : VecGrowth) (priority : Nat) (sound : t.Sound (insert root R))
    (slots : Slots t.kernel.sched (spacesFor t.kernel.mem R)) (new : root ∉ R) (upper : UpperHalf typ t.kernel.mem root) :
    wp (enlist growth typ root priority)
      (fun _ t' => Follows (insert root R) (insert root R) t t' ∧ ∃ id, Enlisted typ root id t t') (fun _ _ => False) t := by
  refine wp_bind ((build_wp typ sound).mono ?_ fun _ _ => id)
  rintro _ t1 ⟨first, sched, mem⟩
  rw [← sched, ← mem] at slots
  rw [← mem] at upper
  refine wp_bind (wp_read (wp_bind (wp_within ((enroll_wp typ root priority rfl).mono ?_ fun _ _ => False.elim))))
  rintro _ _ ⟨s, slot, created, rfl⟩
  have newest : newestSlot { t1.kernel with sched := s } typ = slot := newestSlot_created created
  have second := first.trans (first.sound.enrolled slots new upper created)
  obtain ⟨dropped, empty⟩ := second.sound.dropOld newest created.bound
  obtain ⟨queues, sched2, mem2⟩ := dropOld_same typ { t1 with kernel := { t1.kernel with sched := s } }
  refine wp_bind (wp_write (wp_bind ?_))
  have pushed := dropped.sound.push (E := fun _ _ => False) growth typ (t1.kernel.sched.queue typ).length
  rw [queues] at pushed
  refine pushed.mono ?_ fun _ _ => id
  rintro queue _ ⟨k, rfl, sched3, mem3, last⟩
  refine wp_write ⟨(second.trans dropped).trans last, slot, ?_, (mem3.trans mem2).trans mem, empty⟩
  rw [← sched]
  exact (sched3.trans sched2).symm ▸ created

/-- A successful creation: a process on a fresh level-4 table, with the image in
its address space, and no buffer for its heap yet. -/
structure Spawned (R : Set Nat) (data : List UInt8) (image : Image) (root id : Nat) (t t' : TaskKernel) : Prop where
  follows : Follows R (insert root R) t t'
  fresh : root ∉ R
  created : Created t.kernel.sched t'.kernel.sched image.procType id (root * 4096)
  pages : KeepsPages R t.kernel.mem t'.kernel.mem
  placed : ∃ infos stackBase, Placed data image.sections t'.kernel.mem root infos stackBase
  empty : image.procType = .normal → t'.buffers id = {}

/-- A new address space gets its process. -/
theorem Sound.enlist {root : Nat} {data : List UInt8} {image : Image} (growth : VecGrowth) (priority : Nat) (sound : t.Sound R)
    (space : ImageSpace R data image root t.kernel k) :
    wp (enlist growth image.procType root priority)
      (fun _ t' => t'.kernel.mem = k.mem ∧ ∃ id, Spawned R data image root id t t') (fun _ _ => False)
      { t with kernel := k } := by
  have first := sound.space (Set.subset_insert root R) space.trail space.pages
  have slots : Slots k.sched (spacesFor k.mem R) := by
    rw [space.trail.stage.sched]
    refine sound.heap.slots.mono fun _ r there => ?_
    have shared := there.2.edits space.trail.edits sound.heap.valid.stage.owns there.1
    exact ⟨there.1, shared⟩
  refine (enlist_wp growth priority first.sound slots space.fresh space.upper).mono ?_ fun _ _ => id
  rintro _ t' ⟨follows, id, enlisted⟩
  have mem : t'.kernel.mem = k.mem := enlisted.mem
  have created : Created k.sched t'.kernel.sched image.procType id (root * 4096) := enlisted.created
  rw [space.trail.stage.sched] at created
  exact ⟨mem, id, first.trans follows, space.fresh, created, mem.symm ▸ space.pages, mem.symm ▸ space.placed,
    enlisted.empty⟩

theorem create_wp (mapper : PageMapper) (growth : VecGrowth) (parse : List UInt8 → Option Image) (data : List UInt8)
    (priority : Nat) (sound : t.Sound R) :
    wp (create mapper growth parse data priority)
      (fun _ t' => ∃ image root id, parse data = some image ∧ Spawned R data image root id t t')
      (fun _ t' => t'.kernel.sched = t.kernel.sched ∧ KeepsPages R t.kernel.mem t'.kernel.mem ∧ ∃ R', Follows R R' t t') t := by
  have stage := sound.heap.valid.stage
  refine wp_bind (wp_orFail (fun image parsed => ?_) fun _ => ⟨rfl, .refl, R, sound.follows⟩)
  split
  · refine wp_bind (wp_within ((buildSpace_wp growth mapper data image stage).mono ?_ ?_))
    · rintro root k space
      refine (sound.enlist growth priority space).mono ?_ fun _ _ => False.elim
      rintro _ t' ⟨_, id, spawned⟩
      exact ⟨image, root, id, parsed, spawned⟩
    · rintro _ k ⟨R', grows, trail, pages⟩
      exact ⟨trail.stage.sched, pages, R', sound.space grows trail pages⟩
  · exact wp_fail ⟨rfl, .refl, R, sound.follows⟩

theorem Sound.spawned {mapper : PageMapper} {growth : VecGrowth} {parse : List UInt8 → Option Image} {data : List UInt8}
    {priority : Nat} (sound : t.Sound R) (created : create mapper growth parse data priority t = some (.ok (), t')) :
    ∃ image root id, parse data = some image ∧ Spawned R data image root id t t' :=
  (create_wp mapper growth parse data priority sound).ok created

/-- Every event keeps the state sound. -/
theorem Sound.step {mapper : ExactMapper} {growth : VecGrowth} {parse : List UInt8 → Option Image} {tables : Set Nat}
    {event : HeapEvent} (sound : t.Sound R) (known : ∀ t ∈ tables, ∃ r ∈ R, t = r * 4096) (caller : event.By tables)
    (run : t.step mapper.toPageMapper growth parse event = some t') : ∃ R', Follows R R' t t' := by
  have valid := sound.heap.valid
  cases event with
  | create data priority =>
    obtain ⟨⟨result, _⟩, out, rfl⟩ := Option.map_eq_some_iff.mp run
    cases result with
    | ok done =>
      obtain ⟨_, root, _, _, spawned⟩ := sound.spawned out
      exact ⟨insert root R, spawned.follows⟩
    | error e => exact ((create_wp mapper.toPageMapper growth parse data priority sound).error out).2.2
  | remove typ index =>
    obtain ⟨_, stepped, rfl⟩ := Option.map_eq_some_iff.mp run
    obtain ⟨k, out, rfl⟩ := Option.map_eq_some_iff.mp stepped
    have goes := of_run (remove_wp mapper.toPageMapper typ index valid) out
    exact ⟨R, sound.carried (fun _ => id) (sound.heap.remove out) goes.edits⟩
  | memory userTable c =>
    obtain ⟨root, member, rfl⟩ := known userTable caller
    obtain ⟨_, stepped, rfl⟩ := Option.map_eq_some_iff.mp run
    obtain ⟨⟨result, h⟩, out, rfl⟩ := Option.map_eq_some_iff.mp stepped
    have keeps := sound.heap.call member out
    have framed := keeps.trail.frame sound.stage
    exact ⟨R, fun _ => id, ⟨keeps.sound, framed.stage⟩, framed.edits⟩
  | pagefault pml4 addr =>
    obtain ⟨root, member, rfl⟩ := known pml4 caller
    obtain ⟨_, stepped, rfl⟩ := Option.map_eq_some_iff.mp run
    obtain ⟨k, out, rfl⟩ := Option.map_eq_some_iff.mp stepped
    have goes := of_run (pagefault_wp (E := fun (_ : Error) k' => Goes R R t.kernel k') mapper.toPageMapper addr valid member) out
    exact ⟨R, sound.carried (fun _ => id) (sound.heap.pagefault member out) goes.edits⟩
  | tick regs cr3 =>
    obtain ⟨_, stepped, rfl⟩ := Option.map_eq_some_iff.mp run
    obtain ⟨k, out, rfl⟩ := Option.map_eq_some_iff.mp stepped
    have heap := sound.heap.tick out
    obtain ⟨s, _, rfl⟩ := Option.map_eq_some_iff.mp out
    exact ⟨R, sound.carried (fun _ => id) heap .refl⟩

/-- The state of the machine is sound in every run. -/
theorem Reach.follows {mapper : ExactMapper} {growth : VecGrowth} {parse : List UInt8 → Option Image} {map : MemoryMap}
    {start : Kernel} {tables : Set Nat} (boot : start.Boot map)
    (reach : Reach mapper.toPageMapper growth parse (fresh start) t tables) :
    ∃ R, Follows ∅ R (fresh start) t ∧ ∀ t ∈ tables, ∃ r ∈ R, t = r * 4096 := by
  induction reach with
  | boot => exact ⟨∅, (Sound.boot boot).follows, fun _ none => none.elim⟩
  | build _ run ih =>
    obtain ⟨R, follows, known⟩ := ih
    exact ⟨R, follows.trans ((build_wp (E := fun _ _ => True) _ follows.sound).ok run).1, known⟩
  | next _ caller run ih =>
    obtain ⟨R, follows, known⟩ := ih
    obtain ⟨R', next⟩ := follows.sound.step known caller run
    exact ⟨R', follows.trans next, next.sound.heap.valid.known_tables next.grows known⟩

end

end TaskKernel

end ProkaKernel
