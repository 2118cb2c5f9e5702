import ProkaKernel.CallFrames

namespace ProkaKernel

namespace Kernel
open Prog

section Pages
variable {c : Snapshot} {s : Sched} {k0 k : Kernel} {R : Set Nat} {root : Nat} {gone : Set Nat} {pend rest lost : List Nat}
  {P : Set Nat} {buf : Buffer} (mapper : ExactMapper)

theorem releasePage_call {ε : Type} {E : ε → Kernel → Prop} {page f : Nat}
    (call : InCall c s k0 R root gone pend rest P k) (member : root ∈ R) (inside : page ∈ P)
    (there : translate k.mem root page = some f) :
    wp (releasePage mapper.toPageMapper root page)
      (fun _ k' => InCall c s k0 R root gone (k0.alloc.lostRun f 1 ++ pend) rest (P \ {page}) k' ∧
        ∀ page', page' < 2 ^ 35 → page' ≠ page → translate k'.mem root page' = translate k.mem root page') E k := by
  have bound := call.low page inside
  obtain ⟨m', run⟩ := mapper.unmap_exact bound there
  have unmapped := mapper.unmap_unmapped call.trail.stage.owns member bound run
  refine wp_bind (wp_unmap mapper.toPageMapper fun frame m out => ?_)
  rw [run] at out
  cases out
  have taken : InCall c s k0 R root gone (List.range' f 1 ++ pend) rest (P \ {page}) { k with mem := m' } :=
    call.unmap member inside run
  refine wp_write ⟨taken.give, fun page' bound' other => ?_⟩
  exact Option.ext fun y => (unmapped.pages root page' y member bound').trans (and_iff_left fun same => other same.2)

/-- The rollback takes off exactly the pages that the loop has mapped. Their
frames are given back, but for the boundary. -/
theorem rollback_call {ε : Type} {E : ε → Kernel → Prop} (pages : List Nat)
    (call : InCall c s k0 R root gone pend rest { page | page ∈ pages } k) (nodup : pages.Nodup) (member : root ∈ R) :
    wp (rollback mapper.toPageMapper root pages)
      (fun _ k' => ∃ lost, InCall c s k0 R root gone (lost ++ pend) rest ∅ k' ∧ (lost = [] ↔
        ∀ page ∈ pages, translate k.mem root page ≠ some (k0.alloc.reserved + k0.alloc.selfUsedPage))) E k := by
  induction pages generalizing k pend with
  | nil =>
    have none : { page | page ∈ ([] : List Nat) } = ∅ := by simp
    exact wp_pure ⟨[], none ▸ call, iff_of_true rfl fun _ there => absurd there List.not_mem_nil⟩
  | cons page pages ih =>
    obtain ⟨first, distinct⟩ := List.nodup_cons.mp nodup
    obtain ⟨f, there, stock, _⟩ := call.mapped page (List.mem_cons_self ..)
    refine wp_bind ((releasePage_call mapper call member (List.mem_cons_self ..) there).mono ?_ fun _ _ => id)
    rintro _ k1 ⟨call1, same⟩
    have others : { x | x ∈ page :: pages } \ {page} = { x | x ∈ pages } := by
      ext x
      simp only [Set.mem_sdiff, Set.mem_ofPred_eq, List.mem_cons, Set.mem_singleton_iff]
      constructor
      · rintro ⟨rfl | later, other⟩
        · exact absurd rfl other
        · exact later
      · exact fun later => ⟨Or.inr later, fun same => first (same ▸ later)⟩
    rw [others] at call1
    refine (ih call1 distinct).mono ?_ fun _ _ => id
    rintro _ k2 ⟨lost, call2, none⟩
    rw [← List.append_assoc] at call2
    refine ⟨_, call2, ?_⟩
    rw [List.append_eq_nil_iff, none, FrameAlloc.lostRun_nil_iff stock.1 Nat.one_pos, List.forall_mem_cons, there, and_comm]
    refine and_congr (not_congr ⟨congrArg some, Option.some.inj⟩) (forall₂_congr fun page' later => ?_)
    rw [same page' (call.low page' (List.mem_cons_of_mem page later)) fun equal => first (equal ▸ later)]

theorem giveUp_call {Q : Buffer → Kernel → Prop} (pages : List Nat)
    (call : InCall c s k0 R root ∅ (buf.frames 8 ++ lost) rest { page | page ∈ pages } k) (nodup : pages.Nodup)
    (member : root ∈ R) :
    wp (giveUp mapper.toPageMapper root pages buf) Q
      (fun _ k' => ∃ lost', InCall c s k0 R root ∅ lost' rest ∅ k' ∧ (lost' = [] ↔ lost = [] ∧ buf.lost k0.alloc 8 = [] ∧
        ∀ page ∈ pages, translate k.mem root page ≠ some (k0.alloc.reserved + k0.alloc.selfUsedPage))) k := by
  refine wp_bind ((rollback_call mapper pages call nodup member).mono ?_ fun _ _ => False.elim)
  rintro _ k1 ⟨lost1, call1, none⟩
  refine wp_bind (wp_dropBuffer (wp_fail ⟨_, (call1.perm (List.perm_append_comm_assoc ..)).give, ?_⟩))
  rw [List.append_eq_nil_iff, List.append_eq_nil_iff, none]
  exact ⟨fun ⟨buffer, data, old⟩ => ⟨old, buffer, data⟩, fun ⟨old, buffer, data⟩ => ⟨buffer, data, old⟩⟩

theorem reserve_call {ε : Type} {E : ε → Kernel → Prop} (growth : VecGrowth) (size len : Nat)
    (call : InCall c s k0 R root ∅ (buf.frames size ++ pend) rest P k) :
    wp (reserve growth size len buf)
      (fun buf' k' => InCall c s k0 R root ∅
          (buf'.frames size ++ ((if len < buf.cap then [] else buf.lost k0.alloc size) ++ pend)) rest P k' ∧
        k'.mem = k.mem) E k := by
  unfold reserve
  split
  · exact wp_pure ⟨call, rfl⟩
  · refine wp_bind (wp_newBuffer fun f a run => wp_bind (wp_dropBuffer (wp_pure ⟨?_, rfl⟩)))
    have taken := ((call.take run).perm (List.perm_append_comm_assoc ..)).give
    have start : f * 4096 / 4096 = f := Nat.mul_div_cancel f (by decide)
    have order := taken.perm (List.perm_append_comm_assoc ..)
    unfold Buffer.frames
    rw [start]
    exact order

/-- A push loses frames only to the boundary. -/
theorem reserve_lost {size : Nat} (len : Nat) (call : InCall c s k0 R root ∅ (buf.frames size ++ lost) rest P k)
    (few : lost = [] ∨ ¬FrameAlloc.Used k0.alloc.bitmap (k0.alloc.reserved + k0.alloc.selfUsedPage)) :
    (if len < buf.cap then [] else buf.lost k0.alloc size) ++ lost = [] ∨
      ¬FrameAlloc.Used k0.alloc.bitmap (k0.alloc.reserved + k0.alloc.selfUsedPage) := by
  split
  · exact few
  · rcases call.lost with none | free
    · rw [show buf.lost k0.alloc size = [] from none]
      exact few
    · exact Or.inr free

/-- The rule for the mapping loop of `allocate`. -/
theorem growPages_rule (growth : VecGrowth) {top n : Nat} (aligned : top % 4096 = 0) {I : Nat → Buffer → Kernel → Prop}
    {Q : Buffer → Kernel → Prop} {E : Int → Kernel → Prop} (done : ∀ buf k, I n buf k → Q buf k)
    (full : ∀ i buf k, i < n → I i buf k → k.alloc.allocateContiguous 1 = none →
      wp (giveUp mapper.toPageMapper root (List.range' (top / 4096) i) buf) Q E k)
    (refused : ∀ i buf k phys a m a', i < n → I i buf k → k.alloc.allocateContiguous 1 = some (phys, a) →
      top / 4096 + i < 2 ^ 35 → mapper.mapTo k.mem a root (top / 4096 + i) phys heapFlags = (false, m, a') →
      wp (giveUp mapper.toPageMapper root (List.range' (top / 4096) i) buf) Q E { k with mem := m, alloc := a' })
    (next : ∀ i buf k phys a m a', i < n → I i buf k → k.alloc.allocateContiguous 1 = some (phys, a) →
      top / 4096 + i < 2 ^ 35 → mapper.mapTo k.mem a root (top / 4096 + i) phys heapFlags = (true, m, a') →
      wp (reserve growth 8 i buf) (I (i + 1)) (fun (_ : Int) _ => False) { k with mem := m, alloc := a' })
    (left i : Nat) (total : i + left = n) (start : I i buf k) :
    wp (growPages mapper.toPageMapper growth root top left i (List.range' (top / 4096) i) buf) Q E k := by
  induction left generalizing i buf k with
  | zero =>
    subst total
    exact wp_pure (done buf k start)
  | succ left ih =>
    have inside : i < n := by omega
    refine wp_bind (wp_allocateContiguous (full i buf k inside start) fun phys a run => ?_)
    have page : (top + i * 4096) / 4096 = top / 4096 + i := by omega
    refine wp_bind (wp_pageAt fun bound => ?_)
    rw [page] at bound ⊢
    refine wp_bind (wp_mapTo mapper.toPageMapper fun ok m a' mapped => ?_)
    cases ok with
    | false => exact refused i buf k phys a m a' inside start run bound mapped
    | true =>
      have step := next i buf k phys a m a' inside start run bound mapped
      refine wp_bind ?_
      rw [List.length_range', ← List.range'_1_concat]
      exact step.mono (fun buf' k' after => ih (i + 1) (by omega) after) fun _ _ => False.elim

/-- A page that is refused leaves its frame behind. -/
theorem refusePage_call {top i phys : Nat} {m : Mem} {a a' : FrameAlloc} {P : Set Nat}
    (call : InCall c s k0 R root ∅ (buf.frames 8 ++ lost) rest P k)
    (member : root ∈ R) (run : k.alloc.allocateContiguous 1 = some (phys, a)) (bound : top / 4096 + i < 2 ^ 35)
    (mapped : mapper.mapTo k.mem a root (top / 4096 + i) phys heapFlags = (false, m, a')) :
    InCall c s k0 R root ∅ (buf.frames 8 ++ phys :: lost) rest P { k with mem := m, alloc := a' } := by
  have taken : InCall c s k0 R root ∅ (phys :: (buf.frames 8 ++ lost)) rest P { k with alloc := a } := call.take run
  exact (taken.refused member bound (by decide) mapped).perm List.perm_middle.symm

/-- One page more. -/
theorem mapPage_call {top i phys : Nat} {m : Mem} {a a' : FrameAlloc}
    (call : InCall c s k0 R root ∅ (buf.frames 8 ++ lost) rest { page | page ∈ List.range' (top / 4096) i } k)
    (member : root ∈ R) (run : k.alloc.allocateContiguous 1 = some (phys, a)) (bound : top / 4096 + i < 2 ^ 35)
    (mapped : mapper.mapTo k.mem a root (top / 4096 + i) phys heapFlags = (true, m, a')) :
    InCall c s k0 R root ∅ (buf.frames 8 ++ lost) rest { page | page ∈ List.range' (top / 4096) (i + 1) }
      { k with mem := m, alloc := a' } := by
  have taken : InCall c s k0 R root ∅ (phys :: (buf.frames 8 ++ lost)) rest _ { k with alloc := a } := call.take run
  have stock : k0.alloc.InStock phys :=
    (call.trail.stage.owns.guarded.inStock run Nat.one_pos).of_shape call.shape.symm
  obtain ⟨_, after⟩ := taken.map member bound (Or.inr (Or.inr rfl)) stock mapped
  have span : insert (top / 4096 + i) { page | page ∈ List.range' (top / 4096) i } =
      { page | page ∈ List.range' (top / 4096) (i + 1) } := by
    ext x
    rw [List.range'_1_concat]
    simp only [Set.mem_insert_iff, Set.mem_ofPred_eq, List.mem_append, List.mem_singleton]
    exact or_comm
  exact span ▸ after

/-- The loop maps the whole range, or it leaves the pages as they were. -/
theorem growPages_call (growth : VecGrowth) {top : Nat} (aligned : top % 4096 = 0) (n : Nat)
    (trail : Trail True c s R rest k) (member : root ∈ R) :
    wp (growPages mapper.toPageMapper growth root top n 0 [] {})
      (fun buf k' => ∃ lost, InCall c s k R root ∅ (buf.frames 8 ++ lost) rest
          { page | page ∈ List.range' (top / 4096) n } k' ∧
        (lost = [] ∨ ¬FrameAlloc.Used k.alloc.bitmap (k.alloc.reserved + k.alloc.selfUsedPage)))
      (fun _ k' => ∃ lost, InCall c s k R root ∅ lost rest ∅ k') k := by
  have nodup (i : Nat) : (List.range' (top / 4096) i).Nodup := List.nodup_range'
  refine growPages_rule mapper growth aligned (I := fun i buf k' => ∃ lost,
    InCall c s k R root ∅ (buf.frames 8 ++ lost) rest { page | page ∈ List.range' (top / 4096) i } k' ∧
      (lost = [] ∨ ¬FrameAlloc.Used k.alloc.bitmap (k.alloc.reserved + k.alloc.selfUsedPage)))
    (fun _ _ => id) ?_ ?_ ?_ n 0 (Nat.zero_add n) ⟨[], ?_, Or.inl rfl⟩
  · rintro i buf k1 _ ⟨lost, call, _⟩ _
    refine (giveUp_call mapper _ call (nodup i) member).mono (fun _ _ => id) ?_
    rintro _ k2 ⟨lost', call', _⟩
    exact ⟨lost', call'⟩
  · rintro i buf k1 phys a m a' _ ⟨lost, call, _⟩ run bound mapped
    have left := refusePage_call mapper call member run bound mapped
    refine (giveUp_call mapper _ left (nodup i) member).mono (fun _ _ => id) ?_
    rintro _ k2 ⟨lost', call', _⟩
    exact ⟨lost', call'⟩
  · rintro i buf k1 phys a m a' _ ⟨lost, call, few⟩ run bound mapped
    refine (reserve_call growth 8 i (mapPage_call mapper call member run bound mapped)).mono ?_ fun _ _ => id
    rintro buf' k2 ⟨call', _⟩
    exact ⟨_, call', reserve_lost i call few⟩
  · have none : { page | page ∈ List.range' (top / 4096) 0 } = ∅ := by simp
    rw [none]
    exact InCall.start trail

end Pages

end Kernel

/-- The pages `P` were mapped by a successful call, after which the buffer of
`heap_range` is `new` instead of `old`. Frames are lost only to the boundary. -/
def Granted (c : Snapshot) (k0 : Kernel) (R : Set Nat) (root : Nat) (old new : Buffer) (held : List Nat) (P : Set Nat)
    (k : Kernel) : Prop :=
  ∃ gone pend rest extra, InCall c k.sched k0 R root gone pend rest P k ∧ (∀ q ∈ gone, q ∈ old.frames 16) ∧
    (pend ++ rest).Perm (extra ++ (new.frames 16 ++ held)) ∧
    ∀ f ∈ pend, f ∈ new.frames 16 ∨ ¬FrameAlloc.Used k0.alloc.bitmap (k0.alloc.reserved + k0.alloc.selfUsedPage)

namespace Kernel
open Prog

/-- The range that the next successful `allocate` adds. -/
def nextRange (ranges : List HeapRange) (size : Nat) : HeapRange :=
  ⟨heapTop ranges, heapTop ranges + 4096 * divCeil size pageSize⟩

section Calls
variable {c : Snapshot} {s : Sched} {k0 k : Kernel} {R : Set Nat} {root pid : Nat} {gone : Set Nat}
  {pend rest held : List Nat} {buf : Buffer} (mapper : ExactMapper)

theorem allocateHeap_call (growth : VecGrowth) (size : Nat) (found : findProcess k.sched (root * 4096) = some pid)
    (aligned : heapTop (k.sched.normalProcess pid).heapRange % 4096 = 0)
    (trail : Trail True c k.sched R (buf.frames 16 ++ held) k) (member : root ∈ R) :
    wp (allocateHeap mapper.toPageMapper growth (root * 4096) size buf)
      (fun out k' => ∃ ranges top, ranges = (k.sched.normalProcess pid).heapRange ∧ top = heapTop ranges ∧
        out.1 = (top : Int) ∧ size ≠ 0 ∧ k'.sched = withHeap k.sched pid (ranges ++ [nextRange ranges size]) ∧
        Granted c k R root buf out.2 held { page | page ∈ List.range' (top / 4096) (divCeil size pageSize) } k')
      (fun _ k' => ∃ lost, InCall c k.sched k R root ∅ lost (buf.frames 16 ++ held) ∅ k') k := by
  unfold allocateHeap
  split
  · exact wp_fail ⟨[], InCall.start trail⟩
  · rename_i positive
    refine wp_bind (wp_read ?_)
    rw [found]
    dsimp only
    rw [Nat.mul_div_cancel root (by decide)]
    refine wp_bind ((growPages_call mapper growth aligned (divCeil size pageSize) trail member).mono ?_ fun _ _ => id)
    rintro pages k1 ⟨lost, call, few⟩
    have lostPages : ∀ f ∈ pages.lost k.alloc 8 ++ lost,
        ¬FrameAlloc.Used k.alloc.bitmap (k.alloc.reserved + k.alloc.selfUsedPage) := by
      intro f member
      rcases List.mem_append.mp member with first | second
      · exact call.lost.resolve_left (List.ne_nil_of_mem first)
      · exact few.resolve_left (List.ne_nil_of_mem second)
    unfold reserve
    split
    · refine wp_bind (wp_pure (wp_bind (wp_write (wp_bind (wp_dropBuffer (wp_pure ?_))))))
      refine ⟨_, _, rfl, rfl, rfl, positive, rfl, ∅, _, _, _, call.resched.give, fun _ none => none.elim, .refl _, ?_⟩
      exact fun f there => Or.inr (lostPages f there)
    · refine wp_bind (wp_bind (wp_newBuffer fun f a run => wp_bind (wp_dropBuffer (wp_pure ?_))))
      refine wp_bind (wp_write (wp_bind (wp_dropBuffer (wp_pure ?_))))
      obtain ⟨gone, extra, given, old⟩ := (call.take run).giveHeld
      have start : f * 4096 / 4096 = f := Nat.mul_div_cancel f (by decide)
      refine ⟨_, _, rfl, rfl, rfl, positive, rfl, gone, _, _, pages.lost k.alloc 8 ++ lost ++ extra,
        (given.resched.perm (List.perm_append_comm_assoc ..)).give, old, ?_, ?_⟩
      · unfold Buffer.frames Buffer.lost
        rw [start, List.perm_iff_count]
        intro x
        simp only [List.count_append]
        omega
      · intro g there
        unfold Buffer.frames
        rw [start]
        rcases List.mem_append.mp there with first | second
        · exact Or.inr (lostPages g (List.mem_append_left _ first))
        · exact (List.mem_append.mp second).imp_right fun later => lostPages g (List.mem_append_right _ later)

/-- The rule for the unmapping loop of `deallocate`. -/
theorem shrinkHeap_rule {start n : Nat} (aligned : start % 4096 = 0) {I : Nat → Kernel → Prop}
    (step : ∀ i k, i < n → I i k →
      wp (releasePage mapper.toPageMapper root (start / 4096 + i)) (fun _ => I (i + 1)) (fun (_ : Int) _ => False) k)
    (left i : Nat) (total : i + left = n) (now : I i k) :
    wp (shrinkHeap mapper.toPageMapper root start left i) (fun _ => I n) (fun _ _ => False) k := by
  induction left generalizing i k with
  | zero =>
    subst total
    exact wp_pure now
  | succ left ih =>
    have page : (start + i * 4096) / 4096 = start / 4096 + i := by omega
    refine wp_bind (wp_pageAt fun _ => ?_)
    rw [page]
    refine wp_bind ((step i k (by omega) now).mono ?_ fun _ _ => id)
    exact fun _ k' after => ih (i + 1) (by omega) after

theorem releasePage_returns {ε : Type} (mapper : PageMapper) (root page : Nat) (k : Kernel) :
    ∃ k', (releasePage mapper root page : Prog Kernel ε Unit) k = some (.ok (), k') := by
  cases run : mapper.unmap k.mem root page with
  | mk frame m =>
    have first : (unmap mapper root page : Prog Kernel ε (Option Nat)) k = some (.ok frame, { k with mem := m }) := by
      unfold unmap
      rw [run]
    unfold releasePage
    rw [bind_ok first]
    cases frame with
    | none => exact ⟨_, rfl⟩
    | some f => exact ⟨_, rfl⟩

/-- The loop does not panic on pages of the lower half. -/
theorem shrinkHeap_returns (mapper : PageMapper) (root : Nat) {start : Nat} (n i : Nat)
    (low : ∀ j, i ≤ j → j < i + n → (start + j * 4096) / 4096 < 2 ^ 35) (k : Kernel) :
    ∃ k', shrinkHeap mapper root start n i k = some (.ok (), k') := by
  induction n generalizing i k with
  | zero => exact ⟨k, rfl⟩
  | succ n ih =>
    have first : (pageAt (start + i * 4096) : Prog Kernel Int Nat) k = some (.ok ((start + i * 4096) / 4096), k) := by
      have bound := low i (Nat.le_refl i) (by omega)
      unfold pageAt
      rw [if_pos (by omega)]
      rfl
    obtain ⟨k1, second⟩ := releasePage_returns (ε := Int) mapper root ((start + i * 4096) / 4096) k
    obtain ⟨k2, rest⟩ := ih (i + 1) (fun j lower upper => low j (by omega) (by omega)) k1
    refine ⟨k2, ?_⟩
    unfold shrinkHeap
    rw [bind_ok first, bind_ok second]
    exact rest

/-- The loop unmaps the pages of its range, and no others of any process. -/
theorem shrinkHeap_pages {start n : Nat} (aligned : start % 4096 = 0)
    (mapped : ∀ page ∈ List.range' (start / 4096) n, page < 2 ^ 35 ∧ translate k.mem root page ≠ none)
    (trail : Trail True c s R pend k) (member : root ∈ R) :
    wp (shrinkHeap mapper.toPageMapper root start n 0)
      (fun _ k' => Trail True c s R pend k' ∧ ∀ r ∈ R, ∀ page, page < 2 ^ 35 → translate k'.mem r page =
        if r = root ∧ page ∈ List.range' (start / 4096) n then none else translate k.mem r page)
      (fun _ _ => False) k := by
  refine shrinkHeap_rule mapper aligned (I := fun i k' => Trail True c s R pend k' ∧ ∀ r ∈ R, ∀ page, page < 2 ^ 35 →
    translate k'.mem r page = if r = root ∧ page ∈ List.range' (start / 4096) i then none else translate k.mem r page)
    ?_ n 0 (Nat.zero_add n) ⟨trail, fun r _ page _ => (if_neg fun both => absurd both.2 List.not_mem_nil).symm⟩
  rintro i k1 inside ⟨trail1, pages⟩
  have here : start / 4096 + i ∈ List.range' (start / 4096) n := List.mem_range'_1.mpr ⟨by omega, by omega⟩
  obtain ⟨bound, there⟩ := mapped _ here
  have still : translate k1.mem root (start / 4096 + i) ≠ none := by
    rw [pages root member _ bound, if_neg]
    · exact there
    · rintro ⟨_, before⟩
      have above := (List.mem_range'_1.mp before).2
      omega
  obtain ⟨f, entry⟩ := Option.ne_none_iff_exists'.mp still
  obtain ⟨m', run⟩ := mapper.unmap_exact bound entry
  have unmapped := mapper.unmap_unmapped trail1.stage.owns member bound run
  refine wp_bind (wp_unmap mapper.toPageMapper fun frame m out => ?_)
  rw [run] at out
  cases out
  refine wp_write ⟨(trail1.unmap member bound run).release, fun r member' page bound' => ?_⟩
  show translate m' r page = _
  by_cases same : r = root ∧ page = start / 4096 + i
  · rw [if_pos ⟨same.1, List.mem_range'_1.mpr ⟨by omega, by omega⟩⟩]
    refine Option.eq_none_iff_forall_ne_some.mpr fun y there => ?_
    exact ((unmapped.pages r page y member' bound').mp there).2 same
  · have before : translate m' r page = translate k1.mem r page :=
      Option.ext fun y => (unmapped.pages r page y member' bound').trans (and_iff_left same)
    rw [before, pages r member' page bound']
    refine if_congr (and_congr_right fun root' => ?_) rfl rfl
    rw [List.range'_1_concat, List.mem_append, List.mem_singleton, or_iff_left fun last => same ⟨root', last⟩]

/-- The same for pages that were mapped in the same call. -/
theorem shrinkHeap_call {start n : Nat} (aligned : start % 4096 = 0)
    (call : InCall c s k0 R root gone pend rest { page | page ∈ List.range' (start / 4096) n } k) (member : root ∈ R) :
    wp (shrinkHeap mapper.toPageMapper root start n 0)
      (fun _ k' => ∃ lost, InCall c s k0 R root gone (lost ++ pend) rest ∅ k' ∧
        (lost = [] ∨ ¬FrameAlloc.Used k0.alloc.bitmap (k0.alloc.reserved + k0.alloc.selfUsedPage)))
      (fun _ _ => False) k := by
  have none : { page | page ∈ List.range' (start / 4096 + n) (n - n) } = (∅ : Set Nat) := by simp
  refine (shrinkHeap_rule mapper aligned (I := fun i k' => ∃ lost, InCall c s k0 R root gone (lost ++ pend) rest
    { page | page ∈ List.range' (start / 4096 + i) (n - i) } k' ∧
      (lost = [] ∨ ¬FrameAlloc.Used k0.alloc.bitmap (k0.alloc.reserved + k0.alloc.selfUsedPage)))
    ?_ n 0 (Nat.zero_add n) ⟨[], call, Or.inl rfl⟩).mono (fun _ k' => none ▸ id) fun _ _ => id
  rintro i k1 inside ⟨lost, call1, few⟩
  have here : start / 4096 + i ∈ List.range' (start / 4096 + i) (n - i) := List.mem_range'_1.mpr ⟨by omega, by omega⟩
  obtain ⟨f, there, stock, unused⟩ := call1.mapped _ here
  refine (releasePage_call mapper call1 member here there).mono ?_ fun _ _ => id
  rintro _ k2 ⟨call2, _⟩
  have others : { x | x ∈ List.range' (start / 4096 + i) (n - i) } \ {start / 4096 + i} =
      { x | x ∈ List.range' (start / 4096 + (i + 1)) (n - (i + 1)) } := by
    ext x
    simp only [Set.mem_sdiff, Set.mem_ofPred_eq, List.mem_range'_1, Set.mem_singleton_iff]
    omega
  rw [others, ← List.append_assoc] at call2
  refine ⟨_, call2, ?_⟩
  by_cases boundary : f = k0.alloc.reserved + k0.alloc.selfUsedPage
  · exact Or.inr (boundary ▸ unused)
  · rw [(FrameAlloc.lostRun_nil_iff stock.1 Nat.one_pos).mpr boundary]
    exact few

/-- The lookup of `deallocate` for an address in the last range. -/
theorem last_range {ranges : List HeapRange} {r : HeapRange} {addr : Nat}
    (missed : ∀ r' ∈ ranges, HeapRange.contains r' addr = false) (hit : HeapRange.contains r addr = true) :
    (ranges ++ [r]).findIdx? (HeapRange.contains · addr) = some ranges.length ∧
      (ranges ++ [r]).getD ranges.length ⟨0, 0⟩ = r ∧ (ranges ++ [r]).eraseIdx ranges.length = ranges := by
  refine ⟨?_, ?_, ?_⟩
  · rw [List.findIdx?_append, List.findIdx?_eq_none_iff.mpr missed, List.findIdx?_cons, hit]
    simp
  · rw [List.getD_append_right _ _ _ _ (Nat.le_refl _), Nat.sub_self]
    rfl
  · rw [List.eraseIdx_append_of_length_le (Nat.le_refl _), Nat.sub_self]
    exact List.append_nil ranges

/-- A call of `deallocate` for the range that was mapped last. -/
theorem deallocate_call {ranges : List HeapRange} {r : HeapRange} {addr : Nat}
    (found : findProcess k.sched (root * 4096) = some pid)
    (live : (k.sched.normalProcess pid).heapRange = ranges ++ [r])
    (missed : ∀ r' ∈ ranges, HeapRange.contains r' addr = false) (hit : HeapRange.contains r addr = true)
    (aligned : r.start % 4096 = 0)
    (call : InCall c k.sched k0 R root gone pend rest
      { page | page ∈ List.range' (r.start / 4096) (divCeil (r.stop - r.start) pageSize) } k) (member : root ∈ R) :
    wp (deallocate mapper.toPageMapper (root * 4096) addr)
      (fun value k' => value = 0 ∧ k'.sched = withHeap k.sched pid ranges ∧
        ∃ lost, InCall c k'.sched k0 R root gone (lost ++ pend) rest ∅ k' ∧
          (lost = [] ∨ ¬FrameAlloc.Used k0.alloc.bitmap (k0.alloc.reserved + k0.alloc.selfUsedPage)))
      (fun _ _ => False) k := by
  obtain ⟨here, entry, others⟩ := last_range missed hit
  refine wp_bind (wp_read ?_)
  rw [found]
  dsimp only
  rw [live, here, Nat.mul_div_cancel root (by decide)]
  dsimp only
  rw [entry, others]
  refine wp_bind ((shrinkHeap_call mapper aligned call member).mono ?_ fun _ _ => id)
  rintro _ k1 ⟨lost, call1, few⟩
  exact wp_bind (wp_write (wp_pure ⟨rfl, rfl, lost, call1.resched, few⟩))

end Calls

end Kernel

end ProkaKernel
