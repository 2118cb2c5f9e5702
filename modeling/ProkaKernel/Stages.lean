import ProkaKernel.Edits

namespace ProkaKernel

/-- The memory inside a kernel call: the processes have not changed yet, and
the listed frames were taken from the allocator and have no place. -/
structure Stage (s : Sched) (R : Set Nat) (pend : List Nat) (k : Kernel) : Prop where
  owns : Owns k.mem k.alloc R { f | f ∈ pend }
  nodup : pend.Nodup
  sched : k.sched = s
  reserved : 0 < k.alloc.reserved

section
variable {s : Sched} {R R' : Set Nat} {pend pend' : List Nat} {k : Kernel}

theorem Stage.perm (stage : Stage s R pend k) (perm : pend.Perm pend') : Stage s R pend' k where
  owns := stage.owns.restrict (fun _ => id) fun _ => perm.mem_iff.mpr
  nodup := perm.nodup stage.nodup
  sched := stage.sched
  reserved := stage.reserved

theorem Stage.forget (stage : Stage s R pend k) (roots : R' ⊆ R) : Stage s R' [] k where
  owns := stage.owns.restrict roots fun _ none => nomatch none
  nodup := List.nodup_nil
  sched := stage.sched
  reserved := stage.reserved

theorem Stage.allocate (stage : Stage s R pend k) {n f : Nat} {a : FrameAlloc}
    (run : k.alloc.allocateContiguous n = some (f, a)) :
    Stage s R (List.range' f n ++ pend) { k with alloc := a } := by
  have hands := stage.owns.guarded.hands run
  refine ⟨stage.owns.take run fun g member => ?_, ?_, stage.sched, ?_⟩
  · exact (List.mem_append.mp member).symm.imp_right List.mem_range'_1.mp
  · refine List.nodup_append.mpr ⟨List.nodup_range', stage.nodup, fun g new h old same => ?_⟩
    obtain ⟨lower, upper⟩ := List.mem_range'_1.mp new
    exact hands.not_taken lower upper (same ▸ (stage.owns.spaces.pending h old).1)
  · change 0 < a.reserved
    rw [hands.reserved]
    exact stage.reserved

theorem Stage.edit (stage : Stage s R pend k) {m : Mem} (others : ∀ x, x / 4096 ∉ pend → m x = k.mem x) :
    Stage s R pend { k with mem := m } :=
  ⟨stage.owns.edit_pending others, stage.nodup, stage.sched, stage.reserved⟩

section Calls
variable {mapper : PageMapper} {root page f flags : Nat} {m : Mem} {a : FrameAlloc}

theorem Stage.mapTo (stage : Stage s R (f :: pend) k) (member : root ∈ R) (bound : page < 2 ^ 35)
    (ok : PageFlags.Ok flags) (run : mapper.mapTo k.mem k.alloc root page f flags = (true, m, a)) :
    Mapped root page f R { g | g ∈ pend } k.mem k.alloc m a ∧ Stage s R pend { k with mem := m, alloc := a } := by
  have fresh : f ∉ pend := (List.nodup_cons.mp stage.nodup).1
  have mapped := mapper.mapTo_mapped stage.owns member bound ok (List.mem_cons_self ..) run
    fun g (pending : g ∈ pend) => ⟨List.mem_cons_of_mem f pending, fun same => fresh (same ▸ pending)⟩
  refine ⟨mapped, mapped.owns, (List.nodup_cons.mp stage.nodup).2, stage.sched, ?_⟩
  change 0 < a.reserved
  rw [mapped.reserved]
  exact stage.reserved

theorem Stage.mapTo_refused (stage : Stage s R pend k) (member : root ∈ R) (bound : page < 2 ^ 35)
    (ok : PageFlags.Ok flags) (run : mapper.mapTo k.mem k.alloc root page f flags = (false, m, a)) :
    Stage s R pend { k with mem := m, alloc := a } := by
  have grown := mapper.mapTo_grown stage.owns member bound ok run
  refine ⟨grown.owns, stage.nodup, stage.sched, ?_⟩
  change 0 < a.reserved
  rw [grown.reserved]
  exact stage.reserved

theorem Stage.unmap (stage : Stage s R pend k) (member : root ∈ R) (bound : page < 2 ^ 35)
    (run : mapper.unmap k.mem root page = (some f, m)) : Stage s R (f :: pend) { k with mem := m } := by
  have unmapped := mapper.unmap_unmapped stage.owns member bound run
  refine ⟨unmapped.owns.restrict (fun _ => id) fun g => List.mem_cons.mp, List.nodup_cons.mpr ⟨fun pending => ?_, stage.nodup⟩,
    stage.sched, stage.reserved⟩
  exact (stage.owns.spaces.pending f pending).2 ⟨root, pagePath page, member, pagePath_low bound, unmapped.was⟩

theorem Stage.release (stage : Stage s R (f :: pend) k) :
    Stage s R pend { k with alloc := k.alloc.deallocateContiguous f 1 } := by
  obtain ⟨fresh, nodup⟩ := List.nodup_cons.mp stage.nodup
  have unplaced := (stage.owns.spaces.pending f (List.mem_cons_self ..)).2
  refine ⟨stage.owns.release unplaced fun g pending => ?_, nodup, stage.sched, ?_⟩
  · exact ⟨List.mem_cons_of_mem f pending, fun same => fresh (same ▸ pending)⟩
  · change 0 < (k.alloc.deallocateContiguous f 1).reserved
    rw [FrameAlloc.deallocate_reserved]
    exact stage.reserved

theorem Stage.cleanUp (stage : Stage s R pend k) (member : root ∈ R)
    (run : mapper.cleanUp k.mem k.alloc root = (m, a)) : Stage s R pend { k with mem := m, alloc := a } := by
  obtain ⟨owns, reserved⟩ := mapper.cleanUp_owns stage.owns member run
  exact ⟨owns, stage.nodup, stage.sched, reserved ▸ stage.reserved⟩

end Calls

/-- A pending frame becomes the level-4 table of a new address space, in which
nothing is mapped. -/
theorem Stage.plant {root upper flags : Nat} (stage : Stage s R (root :: pend) k) (shared : Shared upper)
    (ok : PageFlags.Ok flags) :
    Stage s (insert root R) pend { k with mem := (k.mem.zeroFrame root).setEntry root 256 (pte upper flags) } ∧
      root ∉ R ∧ ∀ page, page < 2 ^ 35 →
        translate ((k.mem.zeroFrame root).setEntry root 256 (pte upper flags)) root page = none := by
  obtain ⟨unlisted, nodup⟩ := List.nodup_cons.mp stage.nodup
  have pending : root ∈ root :: pend := List.mem_cons_self ..
  refine ⟨⟨stage.owns.plant pending shared ok fun g old => ?_, nodup, stage.sched, stage.reserved⟩,
    stage.owns.unrooted pending, fun page bound => ?_⟩
  · exact ⟨List.mem_cons_of_mem root old, fun same => unlisted (same ▸ old)⟩
  · have low : LowPath [Fin.ofNat 512 (page / 512 ^ 3)] := lowPath_closed _ _ (pagePath_low bound)
    unfold translate pagePath tableWalk
    rw [Forest.walk, entry_root_self _ _ _ (low_ne_256 low), pteFrame_zero, Option.bind_none]

end

/-- The memory of a kernel inside a call. -/
def Kernel.snapshot (k : Kernel) (R : Set Nat) (pend : List Nat) : Snapshot := ⟨k.mem, k.alloc, R, { f | f ∈ pend }⟩

/-- A stage, with the edits that led to it. -/
structure Trail (back : Prop) (c : Snapshot) (s : Sched) (R : Set Nat) (pend : List Nat) (k : Kernel) : Prop where
  stage : Stage s R pend k
  edits : Edits back False c (k.snapshot R pend)

section
variable {back : Prop} {c : Snapshot} {s : Sched} {R : Set Nat} {pend pend' : List Nat} {k : Kernel}

theorem Stage.trail (stage : Stage s R pend k) : Trail back (k.snapshot R pend) s R pend k := ⟨stage, .refl⟩

theorem Trail.prepend {c' : Snapshot} (trail : Trail back c' s R pend k) (edits : Edits back False c c') :
    Trail back c s R pend k :=
  ⟨trail.stage, edits.trans trail.edits⟩

theorem Trail.perm (trail : Trail back c s R pend k) (perm : pend.Perm pend') : Trail back c s R pend' k :=
  ⟨trail.stage.perm perm, trail.edits.tail (.drop fun _ => perm.mem_iff.mpr)⟩

theorem Trail.forget (trail : Trail back c s R pend k) : Trail back c s R [] k :=
  ⟨trail.stage.forget fun _ => id, trail.edits.tail (.drop fun _ none => nomatch none)⟩

theorem Trail.allocate (trail : Trail back c s R pend k) {n f : Nat} {a : FrameAlloc}
    (run : k.alloc.allocateContiguous n = some (f, a)) :
    Trail back c s R (List.range' f n ++ pend) { k with alloc := a } := by
  refine ⟨trail.stage.allocate run, trail.edits.tail (.take run fun g member => ?_)⟩
  exact (List.mem_append.mp member).symm.imp_right List.mem_range'_1.mp

theorem Trail.edit (trail : Trail back c s R pend k) {m : Mem} (others : ∀ x, x / 4096 ∉ pend → m x = k.mem x) :
    Trail back c s R pend { k with mem := m } :=
  ⟨trail.stage.edit others, trail.edits.tail (.fill others)⟩

/-- The frames that are left when the first one has found its place. -/
theorem Stage.rest {f : Nat} (stage : Stage s R (f :: pend) k) : ∀ g ∈ pend, g ∈ f :: pend ∧ g ≠ f := by
  intro g old
  exact ⟨List.mem_cons_of_mem f old, fun same => (List.nodup_cons.mp stage.nodup).1 (same ▸ old)⟩

theorem Trail.plant {root upper : Nat} (trail : Trail back c s R (root :: pend) k) (shared : Shared upper) :
    Trail back c s (insert root R) pend { k with
      mem := (k.mem.zeroFrame root).setEntry root 256 (pte upper (PageFlags.present ||| PageFlags.writable)) } :=
  ⟨(trail.stage.plant shared (by decide)).1,
    trail.edits.tail (.plant (List.mem_cons_self ..) shared trail.stage.rest)⟩

section Calls
variable {mapper : PageMapper} {root page f flags : Nat} {m : Mem} {a : FrameAlloc}

theorem Trail.mapTo (trail : Trail back c s R (f :: pend) k) (member : root ∈ R) (bound : page < 2 ^ 35)
    (leaf : LeafFlags flags) (run : mapper.mapTo k.mem k.alloc root page f flags = (true, m, a)) :
    Mapped root page f R { g | g ∈ pend } k.mem k.alloc m a ∧ Trail back c s R pend { k with mem := m, alloc := a } := by
  obtain ⟨mapped, stage⟩ := trail.stage.mapTo member bound leaf.ok run
  obtain ⟨middle, p, i, t, growth, last, free, inRam, rfl⟩ :=
    mapper.mapTo_ok (trail.stage.owns.single member) bound leaf.ok run
  have grown := trail.edits.tail (.grow member growth)
  exact ⟨mapped, stage,
    grown.tail (.map member bound leaf (List.mem_cons_self ..) inRam last free trail.stage.rest)⟩

theorem Trail.mapTo_refused (trail : Trail back c s R pend k) (member : root ∈ R) (bound : page < 2 ^ 35)
    (ok : PageFlags.Ok flags) (run : mapper.mapTo k.mem k.alloc root page f flags = (false, m, a)) :
    Trail back c s R pend { k with mem := m, alloc := a } :=
  ⟨trail.stage.mapTo_refused member bound ok run,
    trail.edits.tail (.grow member (mapper.mapTo_err (trail.stage.owns.single member) bound ok run))⟩

theorem Trail.unmap (trail : Trail True c s R pend k) (member : root ∈ R) (bound : page < 2 ^ 35)
    (run : mapper.unmap k.mem root page = (some f, m)) : Trail True c s R (f :: pend) { k with mem := m } := by
  refine ⟨trail.stage.unmap member bound run, ?_⟩
  obtain ⟨p, i, t, last, entry, rfl⟩ := mapper.unmap_ok bound run
  exact trail.edits.tail (.unmap trivial member bound last entry fun g => List.mem_cons.mp)

theorem Trail.release (trail : Trail True c s R (f :: pend) k) :
    Trail True c s R pend { k with alloc := k.alloc.deallocateContiguous f 1 } :=
  ⟨trail.stage.release, trail.edits.tail (.give trivial (List.mem_cons_self ..) trail.stage.rest)⟩

theorem Trail.cleanUp (trail : Trail True c s R pend k) (member : root ∈ R)
    (run : mapper.cleanUp k.mem k.alloc root = (m, a)) : Trail True c s R pend { k with mem := m, alloc := a } :=
  ⟨trail.stage.cleanUp member run,
    trail.edits.tail (.trim trivial member (mapper.cleanUp_trims (trail.stage.owns.single member) run))⟩

end Calls

end

namespace Kernel
open Prog

section
variable {ε : Type} {s : Sched} {R : Set Nat} {pend : List Nat} {k : Kernel} {E : ε → Kernel → Prop}

theorem ends_allocateContiguous {P : Prop} {n : Nat} {Q : Option Nat → Kernel → Prop}
    (missing : k.alloc.allocateContiguous n = none → Q none k)
    (done : ∀ f a, k.alloc.allocateContiguous n = some (f, a) → Q (some f) { k with alloc := a }) :
    ends (allocateContiguous n) Q E P k := by
  unfold ends allocateContiguous
  cases run : k.alloc.allocateContiguous n with
  | none => exact missing run
  | some out => exact done out.1 out.2 run

theorem wp_allocateContiguous {n : Nat} {Q : Option Nat → Kernel → Prop}
    (missing : k.alloc.allocateContiguous n = none → Q none k)
    (done : ∀ f a, k.alloc.allocateContiguous n = some (f, a) → Q (some f) { k with alloc := a }) :
    wp (allocateContiguous n) Q E k :=
  ends_allocateContiguous missing done

theorem ends_allocate_orFail {P : Prop} {n : Nat} {e : ε} {Q : Nat → Kernel → Prop}
    (missing : k.alloc.allocateContiguous n = none → E e k)
    (done : ∀ f a, k.alloc.allocateContiguous n = some (f, a) → Q f { k with alloc := a }) :
    ends (allocateContiguous n >>= Prog.orFail e) Q E P k :=
  ends_bind (ends_allocateContiguous (fun full => ends_fail (missing full)) fun f a run => ends_pure (done f a run))

theorem wp_allocate_orFail {n : Nat} {e : ε} {Q : Nat → Kernel → Prop}
    (missing : k.alloc.allocateContiguous n = none → E e k)
    (done : ∀ f a, k.alloc.allocateContiguous n = some (f, a) → Q f { k with alloc := a }) :
    wp (allocateContiguous n >>= Prog.orFail e) Q E k :=
  ends_allocate_orFail missing done

theorem allocateFrame_none (full : k.alloc.allocateContiguous 1 = none) :
    (allocateFrame : Prog Kernel ε (Option Nat)) k = some (.ok none, k) := by
  unfold allocateFrame allocateContiguous
  rw [full]

theorem allocateFrame_some {f : Nat} {a : FrameAlloc} (run : k.alloc.allocateContiguous 1 = some (f, a)) :
    (allocateFrame : Prog Kernel ε (Option Nat)) k = some (.ok (some f), { k with alloc := a }) := by
  unfold allocateFrame allocateContiguous
  rw [run]

theorem ends_pageAt {P : Prop} {addr : Nat} {Q : Nat → Kernel → Prop} (low : addr / 4096 < 2 ^ 35 → Q (addr / 4096) k)
    (high : ¬addr / 4096 < 2 ^ 35 → P) : ends (pageAt addr) Q E P k := by
  unfold pageAt
  split
  · exact ends_pure (low (by omega))
  · exact ends_abort (high (by omega))

theorem wp_pageAt {addr : Nat} {Q : Nat → Kernel → Prop} (done : addr / 4096 < 2 ^ 35 → Q (addr / 4096) k) :
    wp (pageAt addr) Q E k :=
  ends_pageAt done fun _ => trivial

variable (mapper : PageMapper)

theorem mapTo_run {root page frame flags : Nat} {ok : Bool} {m : Mem} {a : FrameAlloc}
    (run : mapper.mapTo k.mem k.alloc root page frame flags = (ok, m, a)) :
    (mapTo mapper root page frame flags : Prog Kernel ε Bool) k = some (.ok ok, { k with mem := m, alloc := a }) := by
  unfold mapTo
  rw [run]

theorem ends_mapTo {P : Prop} {root page frame flags : Nat} {Q : Bool → Kernel → Prop}
    (done : ∀ ok m a, mapper.mapTo k.mem k.alloc root page frame flags = (ok, m, a) →
      Q ok { k with mem := m, alloc := a }) : ends (mapTo mapper root page frame flags) Q E P k :=
  done _ _ _ rfl

theorem wp_mapTo {root page frame flags : Nat} {Q : Bool → Kernel → Prop}
    (done : ∀ ok m a, mapper.mapTo k.mem k.alloc root page frame flags = (ok, m, a) →
      Q ok { k with mem := m, alloc := a }) : wp (mapTo mapper root page frame flags) Q E k :=
  done _ _ _ rfl

theorem wp_unmap {root page : Nat} {Q : Option Nat → Kernel → Prop}
    (done : ∀ frame m, mapper.unmap k.mem root page = (frame, m) → Q frame { k with mem := m }) :
    wp (unmap mapper root page) Q E k :=
  done _ _ rfl

theorem wp_cleanUp {root : Nat} {Q : Unit → Kernel → Prop}
    (done : ∀ m a, mapper.cleanUp k.mem k.alloc root = (m, a) → Q () { k with mem := m, alloc := a }) :
    wp (cleanUp mapper root) Q E k :=
  done _ _ rfl

end

end Kernel

end ProkaKernel
