import ProkaKernel.ImageLayout
import ProkaKernel.Isolation

namespace ProkaKernel

/-- Two machines that differ only in what their free frames hold. -/
structure SameUsed (k k2 : Kernel) : Prop where
  alloc : k2.alloc = k.alloc
  sched : k2.sched = k.sched
  used : ∀ x, FrameAlloc.Used k.alloc.bitmap (x / 4096) → k2.mem x = k.mem x

section
variable {k k2 : Kernel} {R pend : Set Nat} {r t : Nat}

theorem SameUsed.entry (same : SameUsed k k2) (used : FrameAlloc.Used k.alloc.bitmap t) (j : Fin 512) :
    k2.mem.entry t j = k.mem.entry t j :=
  Mem.entry_congr (fun x here => same.used x (here ▸ used)) j

theorem SameUsed.walk {p : List (Fin 512)} (same : SameUsed k k2) (owns : Owns k.mem k.alloc R pend) (member : r ∈ R)
    (low : LowPath p) : tableWalk k2.mem r p = tableWalk k.mem r p := by
  refine Forest.walk_congr fun q j rest t split here => ?_
  have placed := owns.spaces.placed t ⟨r, q, member, lowPath_closed q (j :: rest) (split ▸ low), here⟩
  rw [same.entry placed.1]

theorem SameUsed.owns (same : SameUsed k k2) (owns : Owns k.mem k.alloc R pend) : Owns k2.mem k2.alloc R pend := by
  rw [same.alloc]
  refine ⟨owns.spaces.unmoved fun r p member low => same.walk owns member low, owns.guarded,
    owns.upper.congr (fun t below j => ?_) fun r member j _ => ?_⟩
  · rw [same.entry (owns.guarded.marked t (by omega))]
  · rw [same.entry (owns.taken_root member).1]

theorem SameUsed.valid (same : SameUsed k k2) (valid : k.Valid R) : k2.Valid R := by
  have owns := valid.stage.owns
  refine ⟨⟨same.owns owns, valid.stage.nodup, rfl, same.alloc ▸ valid.stage.reserved⟩, ?_⟩
  rw [same.sched]
  refine valid.slots.mono fun typ r ⟨member, upper⟩ => ⟨member, fun j high => ?_⟩
  rw [same.entry (owns.taken_root member).1]
  exact upper j high

theorem SameUsed.boot {map : MemoryMap} (same : SameUsed k k2) (boot : k.Boot map) : k2.Boot map := by
  refine ⟨same.alloc ▸ boot.alloc, same.sched.trans boot.sched, fun s shared p f short reached => ?_⟩
  refine boot.upper s shared p f short (Eq.trans (Eq.symm ?_) reached)
  refine Forest.walk_congr fun q j rest t split here => ?_
  have length := congrArg List.length split
  rw [List.length_append] at length
  have below := boot.upper s shared q t (by omega) here
  rw [same.entry (boot.valid.stage.owns.guarded.marked t (by rw [boot.reserved]; omega))]

theorem SameUsed.readByte {addr : Nat} (same : SameUsed k k2) (owns : Owns k.mem k.alloc R pend) (member : r ∈ R)
    (bound : addr / 4096 < 2 ^ 35) : readByte k2.mem r addr = readByte k.mem r addr := by
  have low := pagePath_low bound
  unfold ProkaKernel.readByte
  rw [show translate k2.mem r (addr / 4096) = translate k.mem r (addr / 4096) from same.walk owns member low]
  cases mapped : translate k.mem r (addr / 4096) with
  | none => rfl
  | some f =>
    have used := (owns.spaces.placed f ⟨r, _, member, low, mapped⟩).1
    have frame : (f * 4096 + addr % 4096) / 4096 = f := by omega
    rw [Option.map_some, Option.map_some, same.used _ (frame.symm ▸ used)]

end

section
variable {k : Kernel} {R D pend : Set Nat} {content : Mem}

theorem Data.allocate {a : FrameAlloc} (data : Data k R D content)
    (used : ∀ q, FrameAlloc.Used k.alloc.bitmap q → FrameAlloc.Used a.bitmap q) :
    Data { k with alloc := a } R D content where
  used f here := used f (data.used f here)
  apart := data.apart
  bytes := data.bytes

/-- The frames that are mapped below `root`. -/
def mappedFrames (m : Mem) (root : Nat) : Set Nat := { f | ∃ page, page < 2 ^ 35 ∧ translate m root page = some f }

theorem Owns.mappedData {root : Nat} (owns : Owns k.mem k.alloc R pend) (member : root ∈ R) :
    Data k R (mappedFrames k.mem root) k.mem where
  used := by
    rintro f ⟨page, bound, mapped⟩
    exact (owns.spaces.placed f ⟨root, _, member, pagePath_low bound, mapped⟩).1
  apart := by
    rintro f ⟨page, bound, mapped⟩ r member' p _ short table
    exact owns.leaf_not_table member' member short bound table mapped
  bytes _ _ := rfl

end

/-- The places of a new process that `create` does not fill: the stack, and
what is behind the end of a section on its last page. -/
def Uncleared (secs : List Section) (addr : Nat) : Prop :=
  addr / 4096 = 0x7fffffffe ∨ addr / 4096 = 0x7ffffffff ∨ ∃ before sec after j, secs = before ++ sec :: after ∧
    j < sec.pages ∧ addr / 4096 = 0x200 + (pageCount before + j + j) ∧ sec.size ≤ j * 4096 + addr % 4096

namespace Kernel

section
variable {data : List UInt8} {secs : List Section} {m : Mem} {root stackBase addr : Nat} {infos : List SectionData}

/-- A byte of a section, where the process finds it. -/
theorem Placed.section_byte {before after : List Section} {sec : Section} {j : Nat}
    (placed : Placed data secs m root infos stackBase) (split : secs.filter Section.loadable = before ++ sec :: after)
    (inside : j < sec.pages) (page : addr / 4096 = 0x200 + (pageCount before + j + j))
    (filled : j * 4096 + addr % 4096 < sec.size) :
    readByte m root addr = some (data.getD (sec.base + (j * 4096 + addr % 4096)) 0) := by
  obtain ⟨before', info, after', rfl, _, count, pages, loaded⟩ := placed.section_at split
  have here := placed.page (pages.symm ▸ inside)
  have aligned := loaded.aligned
  have start : (info.addr / 4096 + j) * 4096 + addr % 4096 = info.addr + (j * 4096 + addr % 4096) := by omega
  rw [readByte, page, ← count, here, Option.map_some, start, loaded.bytes _ filled]

theorem imageLayout_mem {entry : Nat × Nat} {c : Nat} (member : entry ∈ imageLayout infos c) :
    ∃ before info after j, infos = before ++ info :: after ∧ j < info.pages ∧
      entry = sectionPage (c + infoCount before) (info.addr / 4096) j := by
  induction infos generalizing c with
  | nil => cases member
  | cons info rest ih =>
    rcases List.mem_append.mp member with here | there
    · obtain ⟨j, inside, rfl⟩ := List.mem_map.mp here
      exact ⟨[], info, rest, j, rfl, by have := (List.mem_range'_1.mp inside).2; omega, rfl⟩
    · obtain ⟨before, info', after, j, rfl, inside, rfl⟩ := ih there
      refine ⟨info :: before, info', after, j, rfl, inside, ?_⟩
      rw [infoCount_cons, ← Nat.add_assoc]

/-- What is mapped belongs to the stack or to a section, and lies on a frame
taken for it. -/
theorem Placed.owner {page f : Nat} (placed : Placed data secs m root infos stackBase) (bound : page < 2 ^ 35)
    (mapped : translate m root page = some f) : f ∈ dataFrames infos stackBase ∧
      (page = 0x7fffffffe ∨ page = 0x7ffffffff ∨ ∃ before sec after j,
        secs.filter Section.loadable = before ++ sec :: after ∧ j < sec.pages ∧
          page = 0x200 + (pageCount before + j + j)) := by
  rcases List.mem_append.mp ((placed.mapped page f bound).mp mapped) with image | stack
  · obtain ⟨before', info, after', j, rfl, inside, same⟩ := imageLayout_mem (List.mem_reverse.mp image)
    obtain ⟨rfl, rfl⟩ := Prod.mk.inj same
    obtain ⟨before, sec, after, split, front, loaded⟩ := forall₂_split placed.loaded.flip
    have pages : info.pages = sec.pages := loaded.pages
    have own : info.addr / 4096 + j ∈ info.frames := List.mem_range'_1.mpr ⟨by omega, by omega⟩
    have taken := List.mem_flatMap_of_mem (List.mem_append_right before' (List.mem_cons_self (l := after'))) own
    refine ⟨List.mem_cons_of_mem _ (List.mem_cons_of_mem _ taken),
      Or.inr (Or.inr ⟨before, sec, after, j, split, pages ▸ inside, ?_⟩)⟩
    rw [Nat.zero_add, infoCount_eq front.flip]
  · simp only [stackLayout, List.mem_cons, Prod.mk.injEq, List.not_mem_nil, or_false] at stack
    rcases stack with ⟨rfl, rfl⟩ | ⟨rfl, rfl⟩
    · exact ⟨List.mem_cons_of_mem _ (List.mem_cons_self ..), Or.inr (Or.inl rfl)⟩
    · exact ⟨List.mem_cons_self .., Or.inl rfl⟩

/-- What two processes made from the same executable read differently lies
where `create` does not fill the pages. -/
theorem Placed.same_bytes {m2 : Mem} {root2 stackBase2 : Nat} {infos2 : List SectionData}
    (placed : Placed data secs m root infos stackBase) (placed2 : Placed data secs m2 root2 infos2 stackBase2)
    (bound : addr / 4096 < 2 ^ 35) (filled : ¬Uncleared (secs.filter Section.loadable) addr) :
    readByte m root addr = readByte m2 root2 addr := by
  have half {m m2 : Mem} {root root2 stackBase stackBase2 : Nat} {infos infos2 : List SectionData}
      (placed : Placed data secs m root infos stackBase) (placed2 : Placed data secs m2 root2 infos2 stackBase2)
      (byte : UInt8) (read : readByte m root addr = some byte) : readByte m2 root2 addr = some byte := by
    obtain ⟨f, mapped, _⟩ := Option.map_eq_some_iff.mp read
    rcases (placed.owner bound mapped).2 with stack | stack | ⟨before, sec, after, j, split, inside, page⟩
    · exact absurd (Or.inl stack) filled
    · exact absurd (Or.inr (Or.inl stack)) filled
    · have within : j * 4096 + addr % 4096 < sec.size := Nat.lt_of_not_le fun behind =>
        filled (Or.inr (Or.inr ⟨before, sec, after, j, split, inside, page, behind⟩))
      rw [placed2.section_byte split inside page within, ← placed.section_byte split inside page within]
      exact read
  exact Option.ext fun byte => ⟨half placed placed2 byte, half placed2 placed byte⟩

end

open Prog

section Heap
variable {c : Snapshot} {s : Sched} {R D : Set Nat} {k : Kernel} {content : Mem} {root : Nat} {a0 : FrameAlloc}
  (mapper : PageMapper)

/-- The pages from `first` on got frames that were free in `a0`, and the other
pages kept theirs. -/
structure Extended (root first count : Nat) (a0 : FrameAlloc) (k k' : Kernel) : Prop where
  kept : ∀ page, page < 2 ^ 35 → ¬(first ≤ page ∧ page < first + count) →
    translate k'.mem root page = translate k.mem root page
  fresh : ∀ page, page < 2 ^ 35 → first ≤ page ∧ page < first + count →
    ∀ f, translate k'.mem root page = some f → ¬FrameAlloc.Used a0.bitmap f

theorem growHeap_extends (top left i : Nat) (allocated : List Nat) (trail : Trail True c s R [] k) (member : root ∈ R)
    (data : Data k R D content) (before : ∀ q, FrameAlloc.Used a0.bitmap q → FrameAlloc.Used k.alloc.bitmap q) :
    wp (growHeap mapper root top left i allocated)
      (fun _ k' => Data k' R D content ∧ Extended root (top / 4096 + i) left a0 k k') (fun _ _ => True) k := by
  induction left generalizing k i allocated with
  | zero => exact wp_pure ⟨data, fun _ _ _ => rfl, fun page _ inside => absurd inside (by omega)⟩
  | succ left ih =>
    refine wp_bind (wp_allocateContiguous (fun _ => wp_then_fail) fun phys a run => ?_)
    have taken : Trail True c s R [phys] { k with alloc := a } := trail.allocate run
    have hands := trail.stage.owns.guarded.hands run
    have more (q : Nat) (used : FrameAlloc.Used k.alloc.bitmap q) : FrameAlloc.Used a.bitmap q :=
      (hands.used q).mpr (Or.inl used)
    have page : (top + i * 4096) / 4096 = top / 4096 + i := by omega
    refine wp_bind (wp_pageAt fun bound => ?_)
    rw [page] at bound ⊢
    refine wp_bind (wp_mapTo mapper fun done m a' mapped => ?_)
    cases done with
    | false => exact wp_then_fail
    | true =>
      obtain ⟨there, trail2⟩ := taken.mapTo member bound (Or.inr (Or.inr rfl)) mapped
      have data2 := there.data member (data.allocate more)
      refine (ih (i + 1) (allocated ++ [_]) trail2 data2 fun q old => there.used q (more q (before q old))).mono ?_
        fun _ _ => id
      rintro _ k' ⟨data', extended⟩
      refine ⟨data', fun page' bound' outside => ?_, fun page' bound' inside f new => ?_⟩
      · rw [extended.kept page' bound' (by omega)]
        refine Option.ext fun y => (there.pages root page' y member bound').trans (or_iff_left ?_)
        rintro ⟨_, rfl, _⟩
        omega
      · by_cases first : page' = top / 4096 + i
        · subst first
          rw [extended.kept _ bound' (by omega)] at new
          rcases (there.pages root _ f member bound').mp new with old | ⟨_, _, rfl⟩
          · rw [there.free] at old
            cases old
          · exact fun used => hands.fresh f (Nat.le_refl f) (Nat.lt_succ_self f) (before f used)
        · exact extended.fresh page' bound' (by omega) f new

/-- After a successful `allocate` the process reads the same as before, except
in the new range. -/
theorem allocate_reads (size : Nat) (valid : k.Valid R) (member : root ∈ R) :
    wp (allocate mapper (root * 4096) size)
      (fun result k' => ∃ pid top, findProcess k.sched (root * 4096) = some pid ∧
        top = heapTop (k.sched.normalProcess pid).heapRange ∧ result = (top : Int) ∧
        Extended root (top / 4096) (divCeil size pageSize) k.alloc k k' ∧
        ∀ addr, addr / 4096 < 2 ^ 35 → ¬(top / 4096 ≤ addr / 4096 ∧ addr / 4096 < top / 4096 + divCeil size pageSize) →
          readByte k'.mem root addr = readByte k.mem root addr)
      (fun _ _ => True) k := by
  unfold allocate
  split
  · exact wp_fail trivial
  · refine wp_bind (wp_read ?_)
    split
    · exact wp_fail trivial
    · rename_i pid found
      rw [Nat.mul_div_cancel root (by decide)]
      have data := valid.stage.owns.mappedData member
      refine wp_bind ((growHeap_extends mapper _ _ 0 [] valid.stage.trail member data fun _ => id).mono ?_ fun _ _ => id)
      rintro _ k1 ⟨data1, extended⟩
      refine wp_bind (wp_write (wp_pure ⟨pid, _, found, rfl, rfl, ⟨extended.kept, extended.fresh⟩, fun addr bound outside => ?_⟩))
      unfold readByte
      show (translate k1.mem root (addr / 4096)).map _ = _
      rw [extended.kept _ bound outside]
      cases mapped : translate k.mem root (addr / 4096) with
      | none => rfl
      | some f =>
        have frame : (f * 4096 + addr % 4096) / 4096 = f := by omega
        have same := data1.bytes (f * 4096 + addr % 4096) (frame.symm ▸ ⟨_, bound, mapped⟩)
        exact congrArg some same

end Heap

/-- Two machines that differ only in what their free frames hold. Whatever the
owners of these frames left there, a new process reads the same on both,
except on its stack and behind its sections; and a process that gets memory
reads the same on both, except in the new range. Those pages lie on frames
that were free, and they are not cleared. -/
theorem residue_only_uncleared (mapper : PageMapper) (parse : List UInt8 → Option Image) {map : MemoryMap}
    {start k k2 : Kernel} {tables : Set Nat} (boot : start.Boot map) (reach : Reach mapper parse start k tables)
    (same : SameUsed k k2) :
    (∀ data priority image k' k2', parse data = some image → image.procType = .normal →
      create mapper parse data priority k = some (.ok (), k') →
      create mapper parse data priority k2 = some (.ok (), k2') → ∀ addr, addr / 4096 < 2 ^ 35 →
        readByte k'.mem (k'.newestTable .normal) addr = readByte k2'.mem (k2'.newestTable .normal) addr ∨
        (Uncleared (image.sections.filter Section.loadable) addr ∧
          ∀ f, translate k'.mem (k'.newestTable .normal) (addr / 4096) = some f → ¬FrameAlloc.Used k.alloc.bitmap f)) ∧
    ∀ table ∈ tables, ∀ size result result2 k' k2', allocate mapper table size k = some (.ok result, k') →
      allocate mapper table size k2 = some (.ok result2, k2') → result2 = result ∧ ∀ addr, addr / 4096 < 2 ^ 35 →
        readByte k'.mem (table / 4096) addr = readByte k2'.mem (table / 4096) addr ∨
        ((result.toNat / 4096 ≤ addr / 4096 ∧ addr / 4096 < result.toNat / 4096 + divCeil size pageSize) ∧
          ∀ f, translate k'.mem (table / 4096) (addr / 4096) = some f → ¬FrameAlloc.Used k.alloc.bitmap f) := by
  obtain ⟨R, valid, known⟩ := reach.valid mapper parse boot
  have valid2 := same.valid valid
  refine ⟨fun data priority image k' k2' parsed normal created created2 addr bound => ?_,
    fun table member size result result2 k' k2' run run2 => ?_⟩
  · obtain ⟨_, root, id, infos, stackBase, image1, spawned⟩ :=
      (create_wp mapper parse data priority valid.stage).ok created
    obtain ⟨_, root2, id2, infos2, stackBase2, image2, spawned2⟩ :=
      (create_wp mapper parse data priority valid2.stage).ok created2
    cases Option.some.inj (parsed.symm.trans image1)
    cases Option.some.inj (parsed.symm.trans image2)
    rw [← normal, spawned.newest, spawned2.newest]
    by_cases uncleared : Uncleared (image.sections.filter Section.loadable) addr
    · refine Or.inr ⟨uncleared, fun f mapped => spawned.unused f ?_⟩
      exact List.mem_cons_of_mem root (spawned.placed.owner bound mapped).1
    · exact Or.inl (spawned.placed.same_bytes spawned2.placed bound uncleared)
  · obtain ⟨root, root_mem, rfl⟩ := known table member
    obtain ⟨pid, top, found, rfl, rfl, extended, reads⟩ := (allocate_reads mapper size valid root_mem).ok run
    obtain ⟨pid2, top2, found2, rfl, rfl, _, reads2⟩ := (allocate_reads mapper size valid2 root_mem).ok run2
    rw [same.sched, found] at found2
    cases found2
    rw [same.sched] at reads2 ⊢
    rw [Nat.mul_div_cancel root (by decide), Int.toNat_natCast]
    refine ⟨rfl, fun addr bound => ?_⟩
    by_cases inside : heapTop (k.sched.normalProcess pid).heapRange / 4096 ≤ addr / 4096 ∧
        addr / 4096 < heapTop (k.sched.normalProcess pid).heapRange / 4096 + divCeil size pageSize
    · exact Or.inr ⟨inside, extended.fresh _ bound inside⟩
    · rw [reads addr bound inside, reads2 addr bound inside, same.readByte valid.stage.owns root_mem bound]
      exact Or.inl rfl

/-- The small machine, with something left behind in a free frame. -/
def dirtyKernel : Kernel where
  mem x := if x / 4096 = 0x1e03 then 1 else 0
  alloc := smallAlloc

theorem dirtyKernel_same : SameUsed smallKernel dirtyKernel where
  alloc := rfl
  sched := rfl
  used x used := by
    have free : ¬FrameAlloc.Used smallAlloc.bitmap 0x1e03 := by decide +kernel
    show (if x / 4096 = 0x1e03 then (1 : UInt8) else 0) = 0
    rw [if_neg]
    intro here
    rw [here] at used
    exact free used

/-- A process of one byte on both machines, with the first byte of its stack. -/
theorem dirtyKernel_runs :
    ∃ k' k2', create FourLevel.mapper flatParse [0x90] 0 smallKernel = some (.ok (), k') ∧
      create FourLevel.mapper flatParse [0x90] 0 dirtyKernel = some (.ok (), k2') ∧
      readByte k'.mem (k'.newestTable .normal) 0x7fffffffe000 = some 0 ∧
      readByte k2'.mem (k2'.newestTable .normal) 0x7fffffffe000 = some 1 := by
  have run : ((create FourLevel.mapper flatParse [0x90] 0 smallKernel).bind fun out =>
      (create FourLevel.mapper flatParse [0x90] 0 dirtyKernel).map fun out2 => (out.1.isOk, out2.1.isOk,
        readByte out.2.mem (out.2.newestTable .normal) 0x7fffffffe000,
        readByte out2.2.mem (out2.2.newestTable .normal) 0x7fffffffe000)) = some (true, true, some 0, some 1) := by
    decide +kernel
  obtain ⟨⟨result, k'⟩, out, run⟩ := Option.bind_eq_some_iff.mp run
  obtain ⟨⟨result2, k2'⟩, out2, same⟩ := Option.map_eq_some_iff.mp run
  simp only [Prod.mk.injEq] at same
  obtain ⟨ok, ok2, clean, dirty⟩ := same
  cases result with
  | error e => cases ok
  | ok done =>
    cases result2 with
    | error e => cases ok2
    | ok done2 => exact ⟨k', k2', out, out2, clean, dirty⟩

/-- A process of one byte on both machines. -/
theorem residue_one_byte :
    ∃ k' k2', create FourLevel.mapper flatParse [0x90] 0 smallKernel = some (.ok (), k') ∧
      create FourLevel.mapper flatParse [0x90] 0 dirtyKernel = some (.ok (), k2') ∧ ∀ addr, addr / 4096 < 2 ^ 35 →
        readByte k'.mem (k'.newestTable .normal) addr = readByte k2'.mem (k2'.newestTable .normal) addr ∨
        (Uncleared [⟨0, 1, true, true⟩] addr ∧
          ∀ f, translate k'.mem (k'.newestTable .normal) (addr / 4096) = some f → ¬FrameAlloc.Used smallAlloc.bitmap f) := by
  obtain ⟨k', k2', out, out2, _⟩ := dirtyKernel_runs
  exact ⟨k', k2', out, out2, (residue_only_uncleared FourLevel.mapper flatParse smallKernel_boot .boot
    dirtyKernel_same).1 _ _ _ k' k2' rfl rfl out out2⟩

/-- The new process reads on its stack what was left behind. -/
theorem residue_on_stack : dirtyKernel.Boot [⟨0, 0x2000000, .freeRAM⟩] ∧ SameUsed smallKernel dirtyKernel ∧
    ∃ k' k2', create FourLevel.mapper flatParse [0x90] 0 smallKernel = some (.ok (), k') ∧
      create FourLevel.mapper flatParse [0x90] 0 dirtyKernel = some (.ok (), k2') ∧
      readByte k'.mem (k'.newestTable .normal) 0x7fffffffe000 ≠
        readByte k2'.mem (k2'.newestTable .normal) 0x7fffffffe000 := by
  obtain ⟨k', k2', out, out2, clean, dirty⟩ := dirtyKernel_runs
  refine ⟨dirtyKernel_same.boot smallKernel_boot, dirtyKernel_same, k', k2', out, out2, ?_⟩
  rw [clean, dirty]
  decide

end Kernel

end ProkaKernel
