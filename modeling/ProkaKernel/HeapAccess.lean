import ProkaKernel.HeapKernel

namespace ProkaKernel

/-- A process in ring 3 may write to the address: there is a walk, and every
level of it is writable and user-accessible. -/
def UserAccess (m : Mem) (root addr : Nat) : Prop :=
  ∃ entries, hwWalk m root (pagePath (addr / 4096)) = some entries ∧ ∀ e ∈ entries, e / 2 % 2 = 1 ∧ e / 4 % 2 = 1

/-- The last level of the walk to a page has this entry. -/
def PageEntry (m : Mem) (root page e : Nat) : Prop := ∃ p i t, LastEntry m root page p i t ∧ m.entry t i = e

/-- The processor passes every entry on the way of a table walk. -/
theorem hwWalk_last_mem {m : Mem} {t u : Nat} {p : List (Fin 512)} {i : Fin 512} {entries : List Nat}
    (reached : tableWalk m t p = some u) (run : hwWalk m t (p ++ [i]) = some entries) : m.entry u i ∈ entries := by
  induction p generalizing t entries with
  | nil =>
    cases Option.some.inj reached
    obtain ⟨_, ⟨_, above, _⟩ | ⟨_, below, _, rfl⟩⟩ := hwWalk_cons run
    · exact absurd rfl above
    · exact List.mem_cons_self ..
  | cons j p ih =>
    obtain ⟨f, entry, rest⟩ := Option.bind_eq_some_iff.mp reached
    obtain ⟨present, ⟨huge, _⟩ | ⟨_, below, inner, rfl⟩⟩ := hwWalk_cons run
    · rw [pteFrame, if_neg fun both => by omega] at entry
      cases entry
    · have single : m.entry t j / 128 % 2 = 0 := by
        by_contra huge
        rw [pteFrame, if_neg fun both => huge both.2] at entry
        cases entry
      rw [pteFrame_table present single] at entry
      cases entry
      exact List.mem_cons_of_mem _ (ih rest inner)

theorem PageEntry.passed {m : Mem} {root addr e : Nat} (entry : PageEntry m root (addr / 4096) e)
    (access : UserAccess m root addr) : e / 4 % 2 = 1 := by
  obtain ⟨p, i, t, last, rfl⟩ := entry
  obtain ⟨entries, run, bits⟩ := access
  rw [last.path] at run
  exact (bits _ (hwWalk_last_mem last.reached run)).2

section
variable {root page page' frame flags e t u : Nat} {R pend : Set Nat} {m m' : Mem} {a a' : FrameAlloc} {p q : List (Fin 512)}
  {i j : Fin 512}

/-- A table of the last level is not one of the levels above. -/
theorem LastEntry.apart (last : LastEntry m root page q j u) (owns : Owns m a R pend) (member : root ∈ R)
    (bound : page < 2 ^ 35) (low : LowPath (p ++ [i])) (short : p.length ≤ 2) (reached : tableWalk m root p = some t) :
    u ≠ t := by
  rintro rfl
  have lowQ : LowPath q := lowPath_closed q [j] (last.low bound)
  obtain ⟨_, rfl⟩ := owns.spaces.exclusive member member lowQ (lowPath_closed p [i] low) last.reached reached
  have deep := last.length
  omega

/-- Tables that grow do not touch the entries of the last level. -/
theorem TableGrowth.pageEntry (growth : TableGrowth root m a m' a') (owns : Owns m a R pend) (member : root ∈ R)
    (bound : page < 2 ^ 35) (entry : PageEntry m root page e) : PageEntry m' root page e := by
  induction growth with
  | refl => exact entry
  | @link m' a' a'' p i t f e' before low short reached free run target small ih =>
    obtain ⟨q, j, u, last, same⟩ := ih
    have grown := before.grown owns member
    have lowQ : LowPath q := lowPath_closed q [j] (last.low bound)
    have apart := last.apart grown.owns member bound low short reached
    have unplaced : ¬Forest.Placed pteFrame LowPath m'.entry R f := fun placed =>
      (grown.owns.guarded.hands run).fresh f (Nat.le_refl f) (Nat.lt_succ_self f) (grown.owns.spaces.placed f placed).1
    have attach := link_attach member low reached free unplaced target small
    have walk := grown.owns.spaces.walk_attach lowPath_closed attach unplaced member lowQ u
    refine ⟨q, j, u, ⟨last.path, walk.mpr (Or.inl last.reached)⟩, ?_⟩
    rw [Mem.entry_setEntry_of_ne _ _ (fun both => apart both.1), Mem.entry_zeroFrame_of_ne, same]
    rintro rfl
    exact unplaced ⟨root, q, member, lowQ, last.reached⟩
  | @widen m' a' p i t e' before low short reached _ _ target small ih =>
    obtain ⟨q, j, u, last, same⟩ := ih
    have apart := last.apart (before.grown owns member).owns member bound low short reached
    have walk : tableWalk (m'.setEntry t i e') root q = tableWalk m' root q :=
      Forest.walk_congr fun _ j _ u _ _ => entry_widen target small u j
    refine ⟨q, j, u, ⟨last.path, walk.trans last.reached⟩, ?_⟩
    rw [Mem.entry_setEntry_of_ne _ _ fun both => apart both.1, same]

/-- A page gets the flags that `map_to` was asked for, and the entries of the
other pages stay. -/
theorem PageMapper.mapTo_pageEntry (mapper : PageMapper) (owns : Owns m a R pend) (member : root ∈ R)
    (bound : page < 2 ^ 35) (ok : PageFlags.Ok flags) (pending : frame ∈ pend)
    (run : mapper.mapTo m a root page frame flags = (true, m', a')) :
    frame < 2 ^ 40 ∧ PageEntry m' root page (pte frame flags) ∧
      ∀ page' e, page' < 2 ^ 35 → e ≠ 0 → PageEntry m root page' e → PageEntry m' root page' e := by
  obtain ⟨middle, p, i, t, growth, last, free, inRam, rfl⟩ := mapper.mapTo_ok (owns.single member) bound ok run
  have grown := growth.grown owns member
  have attach := last.attach member bound ok free inRam
  have unplaced := (grown.owns.spaces.pending frame pending).2
  have stays {page' : Nat} {q : List (Fin 512)} {j : Fin 512} {u : Nat} (bound' : page' < 2 ^ 35)
      (last' : LastEntry middle root page' q j u) : LastEntry (middle.setEntry t i (pte frame flags)) root page' q j u := by
    have lowQ : LowPath q := lowPath_closed q [j] (last'.low bound')
    have walk := grown.owns.spaces.walk_attach lowPath_closed attach unplaced member lowQ u
    exact ⟨last'.path, walk.mpr (Or.inl last'.reached)⟩
  refine ⟨inRam, ⟨p, i, t, stays bound last, Mem.entry_setEntry_self _ _ _ (pte_lt inRam ok)⟩,
    fun page' e bound' used entry => ?_⟩
  obtain ⟨q, j, u, last', rfl⟩ := growth.pageEntry owns member bound' entry
  refine ⟨q, j, u, stays bound' last', Mem.entry_setEntry_of_ne _ _ ?_⟩
  rintro ⟨rfl, rfl⟩
  exact used free

end

/-- The page was mapped with the flags of `allocate`. -/
def HeapEntry (m : Mem) (root page : Nat) : Prop := ∃ f < 2 ^ 40, PageEntry m root page (pte f Kernel.heapFlags)

/-- These flags are without `USER_ACCESSIBLE`. -/
theorem HeapEntry.no_access {m : Mem} {root addr : Nat} (entry : HeapEntry m root (addr / 4096)) :
    ¬UserAccess m root addr := by
  obtain ⟨f, inRam, entry⟩ := entry
  intro access
  have bit := entry.passed access
  have value : Kernel.heapFlags = 2 ^ 63 + 3 := by decide
  unfold pte at bit
  rw [value] at bit
  omega

namespace Kernel
open Prog

section
variable {c : Snapshot} {s : Sched} {k : Kernel} {R : Set Nat} {root pid : Nat} {rest : List Nat} (mapper : ExactMapper)

/-- The mapping loop gives these flags to all pages of the range. -/
theorem growPages_entries (growth : VecGrowth) {top : Nat} (aligned : top % 4096 = 0) (n : Nat)
    (trail : Trail True c s R rest k) (member : root ∈ R) :
    wp (growPages mapper.toPageMapper growth root top n 0 [] {})
      (fun _ k' => ∀ page ∈ List.range' (top / 4096) n, HeapEntry k'.mem root page) (fun _ _ => True) k := by
  refine growPages_rule mapper growth aligned (I := fun i buf k' =>
    (∃ lost, InCall c s k R root ∅ (buf.frames 8 ++ lost) rest { page | page ∈ List.range' (top / 4096) i } k') ∧
      ∀ page ∈ List.range' (top / 4096) i, HeapEntry k'.mem root page)
    (fun _ _ => And.right) (fun _ _ _ _ _ _ => wp_bind (wp_any fun _ _ => wp_then_fail))
    (fun _ _ _ _ _ _ _ _ _ _ _ _ => wp_bind (wp_any fun _ _ => wp_then_fail)) ?_ n 0 (Nat.zero_add n)
    ⟨⟨[], ?_⟩, fun _ none => absurd none List.not_mem_nil⟩
  · rintro i buf k1 phys a m a' _ ⟨⟨lost, call⟩, entries⟩ run bound mapped
    have taken : InCall c s k R root ∅ (phys :: (buf.frames 8 ++ lost)) rest _ { k1 with alloc := a } := call.take run
    obtain ⟨inRam, new, old⟩ := mapper.mapTo_pageEntry taken.trail.stage.owns member bound (by decide)
      (List.mem_cons_self ..) mapped
    refine (reserve_call growth 8 i (mapPage_call mapper call member run bound mapped)).mono ?_ fun _ _ => id
    rintro buf' k2 ⟨call', rfl⟩
    refine ⟨⟨_, call'⟩, fun page inside => ?_⟩
    rw [List.range'_1_concat, List.mem_append, List.mem_singleton] at inside
    rcases inside with before | rfl
    · obtain ⟨f, small, entry⟩ := entries page before
      refine ⟨f, small, old page _ (call.low page before) ?_ entry⟩
      unfold pte
      rw [show heapFlags = 2 ^ 63 + 3 from rfl]
      omega
    · exact ⟨phys, inRam, new⟩
  · have none : { page | page ∈ List.range' (top / 4096) 0 } = ∅ := by simp
    rw [none]
    exact InCall.start trail

theorem allocateHeap_entries (growth : VecGrowth) (size : Nat) (buf : Buffer)
    (found : findProcess k.sched (root * 4096) = some pid)
    (aligned : heapTop (k.sched.normalProcess pid).heapRange % 4096 = 0)
    (trail : Trail True c k.sched R rest k) (member : root ∈ R) :
    wp (allocateHeap mapper.toPageMapper growth (root * 4096) size buf)
      (fun _ k' => ∀ page ∈ List.range' (heapTop (k.sched.normalProcess pid).heapRange / 4096) (divCeil size pageSize),
        HeapEntry k'.mem root page) (fun _ _ => True) k := by
  unfold allocateHeap
  split
  · exact wp_fail trivial
  · refine wp_bind (wp_read ?_)
    rw [found]
    dsimp only
    rw [Nat.mul_div_cancel root (by decide)]
    refine wp_bind ((growPages_entries mapper growth aligned (divCeil size pageSize) trail member).mono ?_ fun _ _ => id)
    intro pages k1 entries
    refine wp_bind ((reserve_mem growth 16 _ buf).mono ?_ fun _ _ => False.elim)
    intro ranges k2 same
    refine wp_bind (wp_write (wp_bind (wp_dropBuffer (wp_pure ?_))))
    exact same ▸ entries

end

end Kernel

namespace HeapKernel

section
variable {h h' : HeapKernel} {R : Set Nat} {root : Nat} {growth : VecGrowth} {mapper : ExactMapper}

/-- All pages of a grant have the flags of `allocate`. -/
theorem Sound.grant_entries {size : UInt64} {addr : Int} (sound : h.Sound R) (member : root ∈ R)
    (run : h.call mapper.toPageMapper growth (root * 4096) (.allocate size) = some (.ok addr, h')) :
    0 ≤ addr ∧ size.toNat ≠ 0 ∧
      ∀ x : Nat, addr ≤ x → (x : Int) < addr + size.toNat → HeapEntry h'.kernel.mem root (x / 4096) := by
  cases found : Kernel.findProcess h.kernel.sched (root * 4096) with
  | none =>
    obtain ⟨e, out⟩ := call_unknown mapper.toPageMapper growth (.allocate size) found
    cases Option.some.inj (out.symm.trans run)
  | some pid =>
    obtain ⟨rfl, positive, _⟩ := sound.granted member found run
    refine ⟨Int.natCast_nonneg _, positive, fun x lower upper => ?_⟩
    obtain ⟨aligned, _⟩ := heapTop_spec (sound.shaped pid)
    have post := Kernel.allocateHeap_entries mapper growth size.toNat (h.buffers (h.caller (root * 4096))) found aligned
      sound.trail member
    obtain ⟨after, out, rfl⟩ := call_cases run
    rcases HeapState.allocate_cases growth out with ⟨_, same, ran⟩ | ⟨_, same, _⟩
    · refine post.ok ran (x / 4096) (List.mem_range'_1.mpr ?_)
      rw [divCeil_page]
      unfold live at *
      omega
    · cases same

end

/-- The addresses from `addr` on are of use to a process in ring 3. -/
def Usable (m : Mem) (root : Nat) (addr : Int) (size : Nat) : Prop :=
  ∀ x : Nat, addr ≤ x → (x : Int) < addr + size → UserAccess m root x

/-- What `allocate` grants is of no use to a process in ring 3, which cannot
access a single address of it. -/
theorem grant_not_usable (mapper : ExactMapper) (growth : VecGrowth) (parse : List UInt8 → Option Image)
    {map : MemoryMap} {start : Kernel} {h h' : HeapKernel} {tables : Set Nat} {root : Nat} {size : UInt64} {addr : Int}
    (boot : start.Boot map) (reach : Reach mapper.toPageMapper growth parse ⟨start, fun _ => {}⟩ h tables)
    (caller : root * 4096 ∈ tables)
    (run : h.call mapper.toPageMapper growth (root * 4096) (.allocate size) = some (.ok addr, h')) :
    ¬Usable h'.kernel.mem root addr size.toNat ∧
      ∀ x : Nat, addr ≤ x → (x : Int) < addr + size.toNat → ¬UserAccess h'.kernel.mem root x := by
  obtain ⟨R, sound, known⟩ := reach.sound boot
  obtain ⟨root', member, same⟩ := known _ caller
  obtain rfl : root = root' := by omega
  obtain ⟨lower, positive, entries⟩ := sound.grant_entries member run
  refine ⟨fun usable => ?_, fun x above below => (entries x above below).no_access⟩
  obtain ⟨top, rfl⟩ := Int.eq_ofNat_of_zero_le lower
  have inside : (top : Int) < top + size.toNat := by omega
  exact (entries top (Int.le_refl _) inside).no_access (usable top (Int.le_refl _) inside)

/-- The first process gets a byte of no use. -/
theorem first_grant_not_usable : ∃ h h' tables, Reach FourLevel.exactMapper.toPageMapper .amortized flatParse
    ⟨smallKernel, fun _ => {}⟩ h tables ∧ 0x1e02 * 4096 ∈ tables ∧
    h.call FourLevel.exactMapper.toPageMapper .amortized (0x1e02 * 4096) (.allocate 1) = some (.ok 0x180000000, h') ∧
    ¬Usable h'.kernel.mem 0x1e02 0x180000000 1 := by
  obtain ⟨h, h', tables, reach, caller, _, _, run, _⟩ := first_grant
  exact ⟨h, h', tables, reach, caller, run,
    (grant_not_usable FourLevel.exactMapper .amortized flatParse smallKernel_boot reach caller run).1⟩

/-- It can write to its stack, but not to this byte. -/
theorem stack_usable_heap_not : ∃ h h' tables, Reach FourLevel.exactMapper.toPageMapper .amortized flatParse
    ⟨smallKernel, fun _ => {}⟩ h tables ∧ 0x1e02 * 4096 ∈ tables ∧
    Kernel.findProcess h.kernel.sched (0x1e02 * 4096) = some 0 ∧
    h.call FourLevel.exactMapper.toPageMapper .amortized (0x1e02 * 4096) (.allocate 1) = some (.ok 0x180000000, h') ∧
    Usable h'.kernel.mem 0x1e02 0x7fffffffe000 4096 ∧ ¬UserAccess h'.kernel.mem 0x1e02 0x180000000 := by
  obtain ⟨h, h', tables, reach, caller, found, _, run, _, _, stack⟩ := first_grant
  obtain ⟨R, sound, known⟩ := reach.sound smallKernel_boot
  obtain ⟨root, member, same⟩ := known _ caller
  obtain rfl : 0x1e02 = root := by omega
  obtain ⟨_, _, entries⟩ := sound.grant_entries member run
  refine ⟨h, h', tables, reach, caller, found, run, fun x lower upper => ?_,
    (entries 0x180000000 (by decide) (by decide)).no_access⟩
  have page : x / 4096 = 0x7fffffffe := by omega
  cases walk : hwWalk h'.kernel.mem 0x1e02 (pagePath 0x7fffffffe) with
  | none =>
    rw [walk] at stack
    cases stack
  | some passed =>
    rw [walk, Option.any_some] at stack
    refine ⟨passed, page ▸ walk, fun e member => ?_⟩
    have bits := eq_of_beq (List.all_eq_true.mp stack e member)
    omega

end HeapKernel

end ProkaKernel
