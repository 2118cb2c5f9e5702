import ProkaKernel.HeapKernel

namespace ProkaKernel

section
variable {ranges : List HeapRange} {r r' : HeapRange} {addr : Nat}

theorem contains_iff : Kernel.HeapRange.contains r addr = true ↔ r.start ≤ addr ∧ addr < r.stop := by
  rw [Kernel.HeapRange.contains, Bool.and_eq_true, decide_eq_true_iff, decide_eq_true_iff]

/-- At most one range has the address. -/
theorem Shaped.unique (shaped : Shaped ranges) (member : r ∈ ranges) (member' : r' ∈ ranges)
    (here : Kernel.HeapRange.contains r addr = true) (here' : Kernel.HeapRange.contains r' addr = true) : r' = r := by
  by_contra other
  have split := shaped.perm (List.perm_cons_erase member)
  have apart := (Shaped.cons_iff.mp split).1.2.2.2 r' ((List.mem_erase_of_ne other).mpr member')
  rw [contains_iff] at here here'
  omega

/-- A range is no earlier member of its list. -/
theorem Shaped.erase {before after : List HeapRange} (shaped : Shaped (before ++ r :: after)) :
    (before ++ r :: after).erase r = before ++ after := by
  have fresh : r ∉ before := by
    intro earlier
    have apart := (List.pairwise_append.mp shaped.disjoint).2.2 r earlier r (List.mem_cons_self ..)
    have positive := shaped.nonempty r (List.mem_append_left _ earlier)
    omega
  rw [List.erase_append_right _ fresh, List.erase_cons_head]

/-- The next range is found by all its addresses, and no other one is. -/
theorem Shaped.next_contains {size : Nat} (shaped : Shaped ranges) (lower : Kernel.heapTop ranges ≤ addr)
    (upper : addr < Kernel.heapTop ranges + 4096 * divCeil size pageSize) :
    Kernel.HeapRange.contains (Kernel.nextRange ranges size) addr = true ∧
      ∀ r ∈ ranges, Kernel.HeapRange.contains r addr = false := by
  refine ⟨contains_iff.mpr ⟨lower, upper⟩, fun r there => Bool.eq_false_iff.mpr fun contains => ?_⟩
  have below := (heapTop_spec shaped).2.2 r there
  have inside := (contains_iff.mp contains).2
  omega

theorem nextRange_pages (ranges : List HeapRange) (size : Nat) :
    divCeil ((Kernel.nextRange ranges size).stop - (Kernel.nextRange ranges size).start) pageSize =
      divCeil size pageSize := by
  have span : (Kernel.nextRange ranges size).stop - (Kernel.nextRange ranges size).start =
      4096 * divCeil size pageSize := Nat.add_sub_cancel_left ..
  rw [span, divCeil_page]
  omega

end

theorem withHeap_withHeap (s : Sched) (pid : Nat) (ranges ranges' : List HeapRange) :
    Kernel.withHeap (Kernel.withHeap s pid ranges) pid ranges' = Kernel.withHeap s pid ranges' := by
  have twice (f : Nat → NormalProcess) (g g' : NormalProcess → NormalProcess) :
      Function.update (Function.update f pid (g (f pid))) pid (g' (Function.update f pid (g (f pid)) pid)) =
        Function.update f pid (g' (g (f pid))) := by
    rw [Function.update_self, Function.update_idem]
  exact congrArg (fun f => { s with normalProcess := f })
    (twice s.normalProcess (fun p => { p with heapRange := ranges }) fun p => { p with heapRange := ranges' })

namespace HeapKernel

/-- What an `allocate` and a `deallocate` right after it leave behind: the
processes and all pages are as before, and only page tables and the buffer of
the caller's `heap_range` can have changed their frames. -/
structure Undone (h h' : HeapKernel) (tables : Set Nat) (root pid : Nat) : Prop where
  sched : h'.kernel.sched = h.kernel.sched
  pages : ∀ t ∈ tables, ∀ page, page < 2 ^ 35 →
    translate h'.kernel.mem (t / 4096) page = translate h.kernel.mem (t / 4096) page
  taken : ∀ q, FrameAlloc.Used h'.kernel.alloc.bitmap q →
    FrameAlloc.Used h.kernel.alloc.bitmap q ∨ TableOf h'.kernel.mem root q ∨ q ∈ (h'.buffers pid).frames 16
  given : ∀ q, FrameAlloc.Used h.kernel.alloc.bitmap q →
    FrameAlloc.Used h'.kernel.alloc.bitmap q ∨ q ∈ (h.buffers pid).frames 16

/-- What a `deallocate` does to the other ranges: every page of the caller
outside the range, and every page of the other processes, is mapped to the same
frame, which is still in use. -/
structure OnlyRange (h h' : HeapKernel) (tables : Set Nat) (root : Nat) (r : HeapRange) : Prop where
  unmapped : ∀ page, page < 2 ^ 35 → r.start ≤ page * 4096 → page * 4096 < r.stop →
    translate h'.kernel.mem root page = none
  pages : ∀ t ∈ tables, ∀ page f, page < 2 ^ 35 →
    ¬(t = root * 4096 ∧ r.start ≤ page * 4096 ∧ page * 4096 < r.stop) →
    translate h.kernel.mem (t / 4096) page = some f →
      translate h'.kernel.mem (t / 4096) page = some f ∧ FrameAlloc.Used h'.kernel.alloc.bitmap f

section
variable {h h1 : HeapKernel} {R tables : Set Nat} {root pid : Nat} {growth : VecGrowth} {mapper : ExactMapper}

/-- The range that `allocate` has added is found by all its addresses. -/
theorem Sound.undo {size x : UInt64} {addr : Int} (sound : h.Sound R) (member : root ∈ R)
    (known : ∀ t ∈ tables, ∃ r ∈ R, t = r * 4096)
    (found : Kernel.findProcess h.kernel.sched (root * 4096) = some pid)
    (inUse : FrameAlloc.Used h.kernel.alloc.bitmap (h.kernel.alloc.reserved + h.kernel.alloc.selfUsedPage))
    (run : h.call mapper.toPageMapper growth (root * 4096) (.allocate size) = some (.ok addr, h1))
    (lower : addr ≤ x.toNat) (upper : (x.toNat : Int) < addr + 4096 * divCeil size.toNat pageSize) :
    ∃ h2, h1.call mapper.toPageMapper growth (root * 4096) (.deallocate x) = some (.ok 0, h2) ∧
      Undone h h2 tables root pid := by
  have sound1 := (sound.call member run).sound
  obtain ⟨rfl, positive, sched, buf, same, gone, pend, rest, extra, call, old, order, few⟩ := sound.granted member found run
  have aligned := (heapTop_spec (sound.shaped pid)).1
  obtain ⟨hit, missed⟩ := (sound.shaped pid).next_contains (Int.ofNat_le.mp lower) (Int.ofNat_lt.mp upper)
  have found1 : Kernel.findProcess h1.kernel.sched (root * 4096) = some pid := by
    rw [sched, Kernel.findProcess_withHeap]
    exact found
  have live : (h1.kernel.sched.normalProcess pid).heapRange =
      h.live pid ++ [Kernel.nextRange (h.live pid) size.toNat] := by
    rw [sched, Kernel.heapRange_withHeap]
  obtain ⟨⟨result, k2⟩, out⟩ := Kernel.deallocate_returns mapper.toPageMapper x.toNat found1 (sound1.shaped pid)
    fun page inside => (sound1.caller_pages found1 page inside).1
  rw [← nextRange_pages (h.live pid) size.toNat] at call
  have post := Kernel.deallocate_call mapper found1 live missed hit aligned call member
  cases result with
  | error e => exact (post.error out).elim
  | ok value =>
    obtain ⟨rfl, sched2, lost, call2, none⟩ := post.ok out
    rw [none.resolve_right fun free => free inUse, List.nil_append] at call2
    refine ⟨{ h1 with kernel := k2 }, ?_, ?_, ?_, ?_, ?_⟩
    · rw [HeapKernel.call, HeapState.call, out]
      dsimp only
      rw [Function.update_eq_self]
    · rw [sched, withHeap_withHeap] at sched2
      exact sched2.trans (withHeap_self _ _)
    · intro t there page bound
      obtain ⟨r, root', rfl⟩ := known t there
      rw [Nat.mul_div_cancel r (by decide)]
      exact call2.kept r root' page bound fun both => both.2
    · intro q used
      have owns := sound.valid.stage.owns.restrict (fun _ => id) (Set.empty_subset _)
      rcases call2.tables owns member used with before | listed | table
      · exact Or.inl before
      · refine Or.inr (Or.inr ?_)
        rw [same]
        show q ∈ (Function.update h.buffers pid buf pid).frames 16
        rw [Function.update_self]
        exact (few q listed).resolve_right fun free => free inUse
      · exact Or.inr (Or.inl table)
    · intro q used
      by_cases kept : q ∈ gone
      · exact Or.inr (old q kept)
      · exact Or.inl (call2.retained q used kept)

/-- The one range with the address is taken off. -/
theorem Sound.take_off {r : HeapRange} {x : UInt64} (sound : h.Sound R) (member : root ∈ R)
    (known : ∀ t ∈ tables, ∃ r ∈ R, t = r * 4096)
    (found : Kernel.findProcess h.kernel.sched (root * 4096) = some pid) (there : r ∈ h.live pid)
    (contains : Kernel.HeapRange.contains r x.toNat = true) :
    ∃ k, h.call mapper.toPageMapper growth (root * 4096) (.deallocate x) = some (.ok 0, { h with kernel := k }) ∧
      k.sched = Kernel.withHeap h.kernel.sched pid ((h.live pid).erase r) ∧
      h.OnlyRange { h with kernel := k } tables root r := by
  rcases sound.freed member found x with ⟨before, r', after, k, live, contains', out, freed⟩ | ⟨_, missed⟩
  · have shaped := sound.shaped pid
    have inside' : r' ∈ h.live pid := by
      rw [live]
      exact List.mem_append_right _ (List.mem_cons_self ..)
    cases shaped.unique there inside' contains contains'
    refine ⟨k, out, ?_, ?_, ?_⟩
    · rw [live] at shaped ⊢
      rw [shaped.erase]
      exact freed.sched
    · intro page bound lower upper
      show translate k.mem root page = none
      rw [freed.pages root member page bound, if_pos ⟨rfl, lower, upper⟩]
    · intro t table page f bound outside mapped
      obtain ⟨q, space, rfl⟩ := known t table
      rw [Nat.mul_div_cancel q (by decide)] at mapped ⊢
      have same : translate k.mem q page = some f := by
        rw [freed.pages q space page bound, if_neg]
        · exact mapped
        · exact fun both => outside ⟨by rw [both.1], both.2⟩
      exact ⟨same, (freed.trail.stage.owns.spaces.placed f ⟨q, _, space, pagePath_low bound, same⟩).1⟩
  · rw [missed r there] at contains
    cases contains

end

/-- A `deallocate` undoes the `allocate` before it, and in every state it takes
off the one range with the address, or does nothing. -/
theorem deallocate_undoes_allocate (mapper : ExactMapper) (growth : VecGrowth) (parse : List UInt8 → Option Image)
    {map : MemoryMap} {start : Kernel} {h : HeapKernel} {tables : Set Nat} {root pid : Nat} (boot : start.Boot map)
    (reach : Reach mapper.toPageMapper growth parse ⟨start, fun _ => {}⟩ h tables) (caller : root * 4096 ∈ tables)
    (found : Kernel.findProcess h.kernel.sched (root * 4096) = some pid) :
    (FrameAlloc.Used h.kernel.alloc.bitmap (h.kernel.alloc.reserved + h.kernel.alloc.selfUsedPage) →
      ∀ (size : UInt64) addr h1, h.call mapper.toPageMapper growth (root * 4096) (.allocate size) = some (.ok addr, h1) →
        ∀ x : UInt64, addr ≤ x.toNat → (x.toNat : Int) < addr + 4096 * divCeil size.toNat pageSize →
          ∃ h2, h1.call mapper.toPageMapper growth (root * 4096) (.deallocate x) = some (.ok 0, h2) ∧
            Undone h h2 tables root pid) ∧
    (∀ x : UInt64, (∀ r ∈ h.live pid, Kernel.HeapRange.contains r x.toNat = false) →
      h.call mapper.toPageMapper growth (root * 4096) (.deallocate x) = some (.error (-17), h)) ∧
    ∀ (x : UInt64), ∀ r ∈ h.live pid, Kernel.HeapRange.contains r x.toNat = true →
      (∀ r' ∈ h.live pid, Kernel.HeapRange.contains r' x.toNat = true → r' = r) ∧
      ∃ k, h.call mapper.toPageMapper growth (root * 4096) (.deallocate x) = some (.ok 0, { h with kernel := k }) ∧
        k.sched = Kernel.withHeap h.kernel.sched pid ((h.live pid).erase r) ∧
        h.OnlyRange { h with kernel := k } tables root r := by
  obtain ⟨R, sound, known⟩ := reach.sound boot
  obtain ⟨root', member, same⟩ := known _ caller
  obtain rfl : root = root' := by omega
  refine ⟨fun inUse size addr h1 run x => sound.undo member known found inUse run, fun x missed => ?_,
    fun x r there contains => ⟨fun r' there' => (sound.shaped pid).unique there there' contains, ?_⟩⟩
  · rcases sound.freed member found x with ⟨before, r, after, _, live, contains, _⟩ | ⟨out, _⟩
    · have there : r ∈ h.live pid := live ▸ List.mem_append_right _ (List.mem_cons_self ..)
      rw [missed r there] at contains
      cases contains
    · exact out
  · exact sound.take_off member known found there contains

/-- It gives the byte back by another address of the same page. -/
theorem deallocate_undoes_first_grant : ∃ h h1 h2 tables,
    h.call FourLevel.exactMapper.toPageMapper .amortized (0x1e02 * 4096) (.allocate 1) = some (.ok 0x180000000, h1) ∧
    h1.call FourLevel.exactMapper.toPageMapper .amortized (0x1e02 * 4096) (.deallocate 0x180000fff) = some (.ok 0, h2) ∧
    Undone h h2 tables 0x1e02 0 := by
  obtain ⟨h, h1, tables, reach, caller, found, inUse, run, _⟩ := first_grant
  have undoes := (deallocate_undoes_allocate FourLevel.exactMapper .amortized flatParse smallKernel_boot reach caller found).1
  obtain ⟨h2, out, undone⟩ := undoes inUse 1 0x180000000 h1 run 0x180000fff (by decide) (by decide)
  exact ⟨h, h1, h2, tables, run, out, undone⟩

/-- The buffer of `heap_range`, which the first `allocate` has taken, stays. -/
theorem deallocate_keeps_buffer : ∃ h h1 h2 tables, Reach FourLevel.exactMapper.toPageMapper .amortized flatParse
    ⟨smallKernel, fun _ => {}⟩ h tables ∧ 0x1e02 * 4096 ∈ tables ∧
    FrameAlloc.Used h.kernel.alloc.bitmap (h.kernel.alloc.reserved + h.kernel.alloc.selfUsedPage) ∧
    h.call FourLevel.exactMapper.toPageMapper .amortized (0x1e02 * 4096) (.allocate 1) = some (.ok 0x180000000, h1) ∧
    h1.call FourLevel.exactMapper.toPageMapper .amortized (0x1e02 * 4096) (.deallocate 0x180000000) = some (.ok 0, h2) ∧
    ∃ q, FrameAlloc.Used h2.kernel.alloc.bitmap q ∧ ¬FrameAlloc.Used h.kernel.alloc.bitmap q ∧
      ¬TableOf h2.kernel.mem 0x1e02 q := by
  obtain ⟨h, h1, tables, reach, caller, found, inUse, run, buffer, free, _⟩ := first_grant
  obtain ⟨R, sound, known⟩ := reach.sound smallKernel_boot
  obtain ⟨root, member, same⟩ := known _ caller
  obtain rfl : 0x1e02 = root := by omega
  obtain ⟨h2, out, _⟩ := sound.undo (x := 0x180000000) member known found inUse run (by decide) (by decide)
  have sound2 := ((sound.call member run).sound.call member out).sound
  have listed : 0x1e0f ∈ h2.held := by
    refine (held_perm (show 0 < maxPs by decide)).mem_iff.mpr (List.mem_append_left _ ?_)
    rw [deallocate_buffers out, buffer]
    exact List.mem_singleton_self _
  obtain ⟨taken, unplaced⟩ := sound2.stage.owns.spaces.pending _ listed
  refine ⟨h, h1, h2, tables, reach, caller, inUse, run, out, 0x1e0f, taken.1, free, ?_⟩
  rintro ⟨p, low, _, there⟩
  exact unplaced ⟨_, p, member, low, there⟩

end HeapKernel

end ProkaKernel
