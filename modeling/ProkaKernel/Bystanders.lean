import ProkaKernel.FreeFrames
import ProkaKernel.Stages

namespace ProkaKernel

section
variable {back device : Prop} {c c' : Snapshot} {root : Nat} {m m' : Mem} {a a' : FrameAlloc}

theorem TableGrowth.shape (growth : TableGrowth root m a m' a') : a'.shape = a.shape := by
  induction growth with
  | refl => rfl
  | link _ _ _ _ _ run _ _ ih => exact (FrameAlloc.shape_allocate run).trans ih
  | widen _ _ _ _ _ _ _ _ ih => exact ih

theorem TableTrim.shape (trim : TableTrim root m a m' a') : a'.shape = a.shape := by
  induction trim with
  | refl => rfl
  | prune _ _ _ _ _ ih => exact (FrameAlloc.shape_deallocate ..).trans ih

theorem Edit.shape (edit : Edit back device c c') : c'.alloc.shape = c.alloc.shape := by
  cases edit with
  | take run _ => exact FrameAlloc.shape_allocate run
  | grow _ growth => exact growth.shape
  | give _ _ _ => exact FrameAlloc.shape_deallocate ..
  | trim _ _ trim => exact trim.shape
  | _ => rfl

theorem Edits.shape (edits : Edits back device c c') : c'.alloc.shape = c.alloc.shape := by
  induction edits with
  | refl => rfl
  | tail _ edit ih => exact edit.shape.trans ih

end

/-- A frame that was handed out and has no part in a kernel call: no address
space has it, and the call has not taken it. -/
structure Bystander (c : Snapshot) (q : Nat) : Prop where
  taken : c.alloc.Taken q
  unplaced : ¬Forest.Placed pteFrame LowPath c.mem.entry c.roots q
  unlisted : q ∉ c.pend

section
variable {m m' : Mem} {a a' : FrameAlloc} {R pend : Set Nat} {root : Nat}

/-- A walk that exists after entries were cleared was there before. -/
theorem placed_of_clear {t q : Nat} {i : Fin 512}
    (placed : Forest.Placed pteFrame LowPath (m.setEntry t i 0).entry R q) : Forest.Placed pteFrame LowPath m.entry R q := by
  obtain ⟨r, p, member, low, reached⟩ := placed
  refine ⟨r, p, member, low, Forest.walk_of_cleared (fun u j => ?_) reached⟩
  rcases m.entry_clear t i u j with same | zero
  · exact Or.inl (by rw [same])
  · exact Or.inr (by rw [zero, pteFrame_zero])

theorem TableTrim.bystander {q : Nat} (trim : TableTrim root m a m' a') (owns : Owns m a R pend) (member : root ∈ R)
    (taken : a.Taken q) (unplaced : ¬Forest.Placed pteFrame LowPath m.entry R q) :
    a'.Taken q ∧ ¬Forest.Placed pteFrame LowPath m'.entry R q := by
  induction trim with
  | refl => exact ⟨taken, unplaced⟩
  | @prune m1 a1 p i t f before short reached entry empty ih =>
    obtain ⟨taken1, unplaced1⟩ := ih
    refine ⟨taken1.deallocate ?_, fun placed => unplaced1 (placed_of_clear placed)⟩
    rintro rfl
    by_cases low : LowPath (p ++ [i])
    · refine unplaced1 ⟨root, p ++ [i], member, low, ?_⟩
      rw [Forest.walk_through reached, entry]
      rfl
    · have below := ((before.owns owns member).upper_place member short low reached entry).1
      have above := taken1.2
      omega

/-- Taking empty tables off unmaps no page. -/
theorem TableTrim.leaves {r page : Nat} (trim : TableTrim root m a m' a') (owns : Owns m a R pend) (member : root ∈ R)
    (known : r ∈ R) (bound : page < 2 ^ 35) : translate m' r page = translate m r page := by
  induction trim with
  | refl => rfl
  | @prune m1 a1 p i t f before short reached entry empty ih =>
    rw [← ih]
    have owns1 := before.owns owns member
    by_cases low : LowPath (p ++ [i])
    · have childless (j : Fin 512) (_ : LowPath (p ++ [i, j])) : pteFrame (m1.entry f j) = none := by
        rw [empty j, pteFrame_zero]
      obtain ⟨detach, _⟩ := owns1.clear_lower member low reached entry childless
      refine Option.ext fun y => (owns1.spaces.walk_detach lowPath_closed detach known (pagePath_low bound) y).trans ?_
      refine and_iff_left fun same => ?_
      have length := congrArg List.length same.2
      rw [List.length_append, List.length_singleton, show (pagePath page).length = 4 from rfl] at length
      omega
    · have place := (owns1.upper_place member short low reached entry).2
      exact owns1.walk_clear_upper (place.imp_right fun both => ⟨both.1 ▸ member, both.2⟩) known (pagePath_low bound)

end

section
variable {back device : Prop} {c c' : Snapshot} {q : Nat}

theorem Edit.bystander (edit : Edit back device c c') (owned : c.Owned) (held : Bystander c q) : Bystander c' q := by
  obtain ⟨taken, unplaced, unlisted⟩ := held
  cases edit with
  | take run members =>
    have hands := owned.guarded.hands run
    refine ⟨hands.taken taken, unplaced, fun listed => ?_⟩
    rcases members q listed with old | ⟨lower, upper⟩
    · exact unlisted old
    · exact hands.not_taken lower upper taken
  | fill others =>
    refine ⟨taken, fun placed => unplaced ?_, unlisted⟩
    obtain ⟨r, p, member, low, reached⟩ := placed
    exact ⟨r, p, member, low, (Owns.walk_filled owned others member low).symm.trans reached⟩
  | @plant root upper pend pending shared fewer =>
    refine ⟨taken, fun placed => ?_, fun listed => unlisted (fewer q listed).1⟩
    obtain ⟨r, p, member, low, reached⟩ := placed
    have fresh := (owned.spaces.pending root pending).2
    rcases (Forest.walk_plant lowPath_closed (root_plant c.mem root _) fresh member low q).mp reached with
      ⟨old, there⟩ | ⟨_, _, rfl⟩
    · exact unplaced ⟨r, p, old, low, there⟩
    · exact unlisted pending
  | grow member growth =>
    have grown := growth.grown owned member
    refine ⟨⟨grown.used q taken.1, ?_⟩, fun placed => unplaced ?_, unlisted⟩
    · rw [FrameAlloc.boundary_of_shape growth.shape]
      exact taken.2
    · obtain ⟨r, p, known, low, reached⟩ := placed
      exact ⟨r, p, known, low, grown.back r p q known low reached taken.1⟩
  | map member bound leaf pending inRam last free fewer =>
    have attach := last.attach member bound leaf.ok free inRam
    have fresh := (owned.spaces.pending _ pending).2
    refine ⟨taken, fun placed => ?_, fun listed => unlisted (fewer q listed).1⟩
    obtain ⟨r, p, known, low, reached⟩ := placed
    rcases (owned.spaces.walk_attach lowPath_closed attach fresh known low q).mp reached with old | ⟨_, _, rfl⟩
    · exact unplaced ⟨r, p, known, low, old⟩
    · exact unlisted pending
  | unmap _ member bound last entry fewer =>
    refine ⟨taken, fun placed => unplaced (placed_of_clear placed), fun listed => ?_⟩
    rcases fewer q listed with rfl | old
    · refine unplaced ⟨_, _, member, last.low bound, ?_⟩
      rw [Forest.walk_through last.reached, entry]
      rfl
    · exact unlisted old
  | give _ pending fewer =>
    refine ⟨taken.deallocate ?_, unplaced, fun listed => unlisted (fewer q listed).1⟩
    rintro rfl
    exact unlisted pending
  | trim _ member trim =>
    obtain ⟨taken', unplaced'⟩ := trim.bystander owned member taken unplaced
    exact ⟨taken', unplaced', unlisted⟩
  | device _ member low _ reached free inRange =>
    obtain ⟨none, bound⟩ := mmio_entry inRange
    refine ⟨taken, fun placed => unplaced ?_, unlisted⟩
    obtain ⟨r, p, known, lowP, there⟩ := placed
    refine ⟨r, p, known, lowP, Eq.trans (Eq.symm ?_) there⟩
    exact Forest.walk_congr fun _ j _ u _ _ => entry_widen (by rw [none, free, pteFrame_zero]) bound u j
  | drop fewer => exact ⟨taken, unplaced, fun listed => unlisted (fewer q listed)⟩

/-- No kernel call touches a frame that it has no part in. -/
theorem Edits.bystander (edits : Edits back device c c') (owned : c.Owned) (held : Bystander c q) : Bystander c' q :=
  (edits.keeps (P := fun d => Bystander d q) (fun edit dOwned => edit.bystander dOwned) owned held).2

/-- As long as nothing is given back, mapped pages stay mapped. -/
theorem Edit.leaf {r page f : Nat} (edit : Edit False device c c') (owned : c.Owned) (member : r ∈ c.roots)
    (bound : page < 2 ^ 35) (there : translate c.mem r page = some f) : translate c'.mem r page = some f := by
  have low := pagePath_low bound
  cases edit with
  | take | drop => exact there
  | fill others => exact (Owns.walk_filled owned others member low).trans there
  | @plant root upper pend pending shared fewer =>
    have fresh := (owned.spaces.pending root pending).2
    exact (Forest.walk_plant lowPath_closed (root_plant c.mem root _) fresh (Set.mem_insert_of_mem root member) low f).mpr
      (Or.inl ⟨member, there⟩)
  | grow known growth => exact ((growth.grown owned known).leaves r _ member low rfl).trans there
  | map known bound' leaf pending inRam last free fewer =>
    have attach := last.attach known bound' leaf.ok free inRam
    have fresh := (owned.spaces.pending _ pending).2
    exact (owned.spaces.walk_attach lowPath_closed attach fresh member low f).mpr (Or.inl there)
  | unmap back | give back | trim back => exact back.elim
  | device _ known lowT _ reached free inRange =>
    obtain ⟨none, bound'⟩ := mmio_entry inRange
    refine Eq.trans ?_ there
    exact Forest.walk_congr fun _ j _ u _ _ => entry_widen (by rw [none, free, pteFrame_zero]) bound' u j

theorem Edits.leaf {r page f : Nat} (edits : Edits False device c c') (owned : c.Owned) (member : r ∈ c.roots)
    (bound : page < 2 ^ 35) (there : translate c.mem r page = some f) : translate c'.mem r page = some f :=
  (edits.keeps (P := fun d => r ∈ d.roots ∧ translate d.mem r page = some f)
    (fun edit dOwned both => ⟨edit.roots both.1, edit.leaf dOwned both.1 bound both.2⟩) owned ⟨member, there⟩).2.2

end

/-- The frame rule: what is done beside some frames can be done while they are
held. -/
theorem Edit.frame {back device : Prop} {c c' : Snapshot} {held : Set Nat} (edit : Edit back device c c')
    (apart : ∀ q ∈ held, q ∉ c.pend) :
    Edit back device { c with pend := c.pend ∪ held } { c' with pend := c'.pend ∪ held } := by
  have others {pend' : Set Nat} {f : Nat} (pending : f ∈ c.pend) (fewer : ∀ g ∈ pend', g ∈ c.pend ∧ g ≠ f) :
      ∀ g ∈ pend' ∪ held, g ∈ c.pend ∪ held ∧ g ≠ f := by
    rintro g (old | listed)
    · exact ⟨Or.inl (fewer g old).1, (fewer g old).2⟩
    · exact ⟨Or.inr listed, fun same => apart g listed (same ▸ pending)⟩
  cases edit with
  | take run members =>
    refine .take run ?_
    rintro g (new | listed)
    · exact (members g new).imp_left Or.inl
    · exact Or.inl (Or.inr listed)
  | fill same => exact .fill fun x outside => same x fun pending => outside (Or.inl pending)
  | plant pending shared fewer => exact .plant (Or.inl pending) shared (others pending fewer)
  | grow member growth => exact .grow member growth
  | map member bound leaf pending inRam last free fewer =>
    exact .map member bound leaf (Or.inl pending) inRam last free (others pending fewer)
  | unmap back member bound last entry fewer =>
    refine .unmap back member bound last entry ?_
    rintro g (new | listed)
    · exact (fewer g new).imp_right Or.inl
    · exact Or.inr (Or.inr listed)
  | give back pending fewer => exact .give back (Or.inl pending) (others pending fewer)
  | trim back member trim => exact .trim back member trim
  | device allowed member low length reached free inRange => exact .device allowed member low length reached free inRange
  | drop fewer =>
    refine .drop ?_
    rintro g (old | listed)
    · exact Or.inl (fewer g old)
    · exact Or.inr listed

theorem Edits.frame {back device : Prop} {c c' : Snapshot} {held : Set Nat} (edits : Edits back device c c') (owned : c.Owned)
    (beside : ∀ q ∈ held, Bystander c q) :
    Edits back device { c with pend := c.pend ∪ held } { c' with pend := c'.pend ∪ held } := by
  induction edits with
  | refl => exact .refl
  | tail before edit ih =>
    refine ih.tail (edit.frame fun q listed => ?_)
    exact (Edits.bystander before owned (beside q listed)).unlisted

/-- The frames that are held over some edits. -/
theorem Edits.hold {s : Sched} {R R' : Set Nat} {pend pend' held : List Nat} {k k' : Kernel} {back device : Prop}
    (edits : Edits back device (k.snapshot R pend) (k'.snapshot R' pend')) (stage : Stage k.sched R (pend ++ held) k)
    (after : Stage s R' pend' k') : Stage s R' (pend' ++ held) k' := by
  have owned : (k.snapshot R pend).Owned := stage.owns.restrict (fun _ => id) fun _ => List.mem_append_left held
  have kept {f : Nat} (listed : f ∈ held) : Bystander (k'.snapshot R' pend') f := by
    obtain ⟨taken, unplaced⟩ := stage.owns.spaces.pending f (List.mem_append_right pend listed)
    exact edits.bystander owned ⟨taken, unplaced, fun pending =>
      (List.nodup_append.mp stage.nodup).2.2 f pending f listed rfl⟩
  have spaces : Spaces k'.mem k'.alloc R' { f | f ∈ pend' ++ held } := by
    refine ⟨after.owns.spaces.exclusive, after.owns.spaces.placed, fun f listed => ?_⟩
    rcases List.mem_append.mp listed with pending | listed
    · exact after.owns.spaces.pending f pending
    · exact ⟨(kept listed).taken, (kept listed).unplaced⟩
  refine ⟨⟨spaces, after.owns.guarded, after.owns.upper⟩, ?_, after.sched, after.reserved⟩
  refine List.nodup_append.mpr ⟨after.nodup, (List.nodup_append.mp stage.nodup).2.1, fun f pending g listed same => ?_⟩
  exact (kept listed).unlisted (same ▸ pending)

/-- The frames that are held over a call. -/
theorem Stage.hold {s : Sched} {R R' : Set Nat} {held : List Nat} {k k' : Kernel} {back device : Prop}
    (stage : Stage k.sched R held k) (edits : Edits back device (k.snapshot R []) (k'.snapshot R' []))
    (after : Stage s R' [] k') : Stage s R' held k' :=
  Edits.hold edits stage after

theorem Kernel.snapshot_append (k : Kernel) (R : Set Nat) (pend held : List Nat) :
    k.snapshot R (pend ++ held) = { k.snapshot R pend with pend := (k.snapshot R pend).pend ∪ { f | f ∈ held } } := by
  have same : { f | f ∈ pend ++ held } = { f | f ∈ pend } ∪ { f | f ∈ held } := Set.ext fun _ => List.mem_append
  unfold snapshot
  rw [same]

theorem Trail.frame {back : Prop} {s : Sched} {R R' : Set Nat} {pend pend' held : List Nat} {k k' : Kernel}
    (trail : Trail back (k.snapshot R pend) s R' pend' k') (stage : Stage k.sched R (pend ++ held) k) :
    Trail back (k.snapshot R (pend ++ held)) s R' (pend' ++ held) k' := by
  refine ⟨trail.edits.hold stage trail.stage, ?_⟩
  rw [Kernel.snapshot_append, Kernel.snapshot_append]
  refine Edits.frame trail.edits (stage.owns.restrict (fun _ => id) fun _ => List.mem_append_left held) fun q listed => ?_
  obtain ⟨taken, unplaced⟩ := stage.owns.spaces.pending q (List.mem_append_right pend listed)
  exact ⟨taken, unplaced, fun pending => (List.nodup_append.mp stage.nodup).2.2 q pending q listed rfl⟩

end ProkaKernel
