import ProkaKernel.KernelHeap
import ProkaKernel.KernelSteps

namespace ProkaKernel

/-- The buffer of a `Vec` on the kernel heap; without capacity there is none. -/
structure Buffer where
  cap : Nat := 0
  ptr : Nat := 0

/-- The layout of a buffer whose items have `size` bytes. -/
def Buffer.layout (buf : Buffer) (size : Nat) : Layout := ⟨buf.cap * size, 8, 3, rfl⟩

def Buffer.frames (buf : Buffer) (size : Nat) : List Nat :=
  List.range' (buf.ptr / 4096) (divCeil (buf.cap * size) pageSize)

/-- The capacities that a full `Vec` takes one after the other; how fast they
grow is left open. -/
structure VecGrowth where
  next : Nat → Nat
  grows : ∀ cap, cap < next cap

/-- Capacities are doubled, from four on. -/
def VecGrowth.amortized : VecGrowth where
  next cap := max (cap * 2) 4
  grows cap := by omega

namespace Kernel
open Prog

/-- The kernel heap, whose provider `memory::init` registers first of all. -/
def heap (k : Kernel) : KernelHeap := ⟨k.alloc, true⟩

section Vec
variable {ε : Type} (growth : VecGrowth)

/-- A new buffer; a refused request ends in the panic of `handle_alloc_error`. -/
def newBuffer (size cap : Nat) : Prog Kernel ε Buffer := fun k =>
  match k.heap.alloc (Buffer.layout ⟨cap, 0⟩ size) with
  | (ptr, heap) => if ptr = nullPtr then none else some (.ok ⟨cap, ptr⟩, { k with alloc := heap.frames })

def dropBuffer (size : Nat) (buf : Buffer) : Prog Kernel ε Unit :=
  Prog.write fun k => { k with alloc := (k.heap.dealloc buf.ptr (buf.layout size)).frames }

/-- The room for one more item that `push` makes in a full `Vec`: a larger
buffer is taken before the old one is given back. -/
def reserve (size len : Nat) (buf : Buffer) : Prog Kernel ε Buffer :=
  if len < buf.cap then pure buf
  else do
    let larger ← newBuffer size (growth.next buf.cap)
    dropBuffer size buf
    pure larger

end Vec

section Calls
variable (mapper : PageMapper) (growth : VecGrowth)

/-- The fallback of `allocate`, with the end of `allocated_pages`. -/
def giveUp (root : Nat) (allocatedPages : List Nat) (buf : Buffer) : Prog Kernel Int Buffer := do
  rollback mapper root allocatedPages
  dropBuffer 8 buf
  Prog.fail (-18)

/-- The mapping loop of `allocate`, with the buffer of `allocated_pages`. -/
def growPages (root top : Nat) : Nat → Nat → List Nat → Buffer → Prog Kernel Int Buffer
  | 0, _, _, buf => pure buf
  | left + 1, i, allocatedPages, buf => do
    match ← allocateFrame with
    | none => giveUp mapper root allocatedPages buf
    | some phys => do
      let virt ← pageAt (top + i * 4096)
      let mapped ← mapTo mapper root virt phys heapFlags
      if mapped then do
        let buf ← reserve growth 8 allocatedPages.length buf
        growPages root top left (i + 1) (allocatedPages ++ [virt]) buf
      else giveUp mapper root allocatedPages buf

/-- The memory syscall's `allocate` with the buffers of its two vectors;
`ranges` is the one of the caller's `heap_range`. -/
def allocateHeap (userTable size : Nat) (ranges : Buffer) : Prog Kernel Int (Int × Buffer) :=
  if size = 0 then Prog.fail (-16)
  else do
    let s ← Prog.read Kernel.sched
    match findProcess s userTable with
    | none => Prog.fail (-17)
    | some pid => do
      let heapRange := (s.normalProcess pid).heapRange
      let top := heapTop heapRange
      let pages := divCeil size pageSize
      let buf ← growPages mapper growth (userTable / 4096) top pages 0 [] {}
      let ranges ← reserve growth 16 heapRange.length ranges
      Prog.write fun k => { k with sched := withHeap s pid (heapRange ++ [⟨top, top + 4096 * pages⟩]) }
      dropBuffer 8 buf
      pure (top, ranges)

end Calls

end Kernel

/-- The kernel, with the buffer of one process's `heap_range`. -/
structure HeapState where
  kernel : Kernel
  ranges : Buffer := {}

/-- The calls of the memory syscall. -/
inductive MemorySyscall
  | allocate (size : UInt64)
  | deallocate (addr : UInt64)

namespace HeapState
variable (mapper : PageMapper) (growth : VecGrowth) (table : Nat)

/-- One call of the process on the page table `table`, with its result;
`none` is a panic. -/
def call (h : HeapState) : MemorySyscall → Option (Except Int Int × HeapState)
  | .allocate size =>
    match Kernel.allocateHeap mapper growth table size.toNat h.ranges h.kernel with
    | none => none
    | some (.ok (addr, ranges), k) => some (.ok addr, ⟨k, ranges⟩)
    | some (.error e, k) => some (.error e, { h with kernel := k })
  | .deallocate addr =>
    match Kernel.deallocate mapper table addr.toNat h.kernel with
    | none => none
    | some (result, k) => some (result, { h with kernel := k })

/-- The state after a sequence of calls. -/
def calls (h : HeapState) : List MemorySyscall → Option HeapState
  | [] => some h
  | first :: rest => (h.call mapper growth table first).bind fun out => out.2.calls rest

end HeapState

namespace FrameAlloc

/-- A run above the boundary is given back frame by frame. -/
theorem deallocate_succ {a : FrameAlloc} {f n : Nat} (above : a.reserved + a.selfUsedPage < f) :
    a.deallocateContiguous f (n + 1) = (a.deallocateContiguous f 1).deallocateContiguous (f + 1) n := by
  have first : a.deallocateContiguous f 1 = { a with bitmap := setRun a.bitmap f 1 0 } := if_neg (Nat.not_le.mpr above)
  rw [first, deallocateContiguous, deallocateContiguous, if_neg (Nat.not_le.mpr above), if_neg]
  · rfl
  · exact Nat.not_le.mpr (Nat.lt_succ_of_lt above)

end FrameAlloc

section
variable {back : Prop} {c : Snapshot} {s : Sched} {R : Set Nat} {pend pend' : List Nat} {k : Kernel} {f n : Nat}

/-- Frames that nobody gives back. -/
theorem Trail.discard (trail : Trail back c s R (pend' ++ pend) k) : Trail back c s R pend k := by
  have fewer : ∀ g ∈ pend, g ∈ pend' ++ pend := fun g => List.mem_append_right pend'
  refine ⟨⟨trail.stage.owns.restrict (fun _ => id) fewer, ?_, trail.stage.sched, trail.stage.reserved⟩,
    trail.edits.tail (.drop fewer)⟩
  exact (List.nodup_append.mp trail.stage.nodup).2.1

theorem Trail.releaseRun (trail : Trail True c s R (List.range' f n ++ pend) k) :
    Trail True c s R pend { k with alloc := k.alloc.deallocateContiguous f n } := by
  induction n generalizing f k with
  | zero =>
    rw [FrameAlloc.deallocate_zero]
    exact trail
  | succ n ih =>
    by_cases above : k.alloc.reserved + k.alloc.selfUsedPage < f
    · rw [FrameAlloc.deallocate_succ above]
      exact ih trail.release
    · have same : k.alloc.deallocateContiguous f (n + 1) = k.alloc := if_pos (Nat.le_of_not_lt above)
      rw [same]
      exact trail.discard

end

namespace Kernel
open Prog

section
variable {ε : Type} {E : ε → Kernel → Prop} {c : Snapshot} {s : Sched} {R : Set Nat} {pend : List Nat} {k : Kernel}
  {size : Nat} {buf : Buffer}

/-- What a new buffer takes from the frame allocator. -/
theorem wp_newBuffer {cap : Nat} {Q : Buffer → Kernel → Prop}
    (done : ∀ f a, k.alloc.allocateContiguous (divCeil (cap * size) pageSize) = some (f, a) →
      Q ⟨cap, f * 4096⟩ { k with alloc := a }) : wp (newBuffer size cap) Q E k := by
  unfold wp newBuffer
  rcases k.heap.alloc_cases (Buffer.layout ⟨cap, 0⟩ size) with ⟨null, _⟩ | ⟨f, a, _, _, _, run, out⟩
  · rw [null]
    trivial
  · rw [out]
    dsimp only
    by_cases null : f * pageSize = nullPtr
    · rw [if_pos null]
      trivial
    · rw [if_neg null]
      exact done f a run

/-- What a buffer gives back to the frame allocator. -/
theorem heap_dealloc (k : Kernel) (buf : Buffer) (size : Nat) :
    (k.heap.dealloc buf.ptr (buf.layout size)).frames =
      k.alloc.deallocateContiguous (buf.ptr / 4096) (divCeil (buf.cap * size) pageSize) := by
  unfold KernelHeap.dealloc
  split
  · rename_i empty
    rw [show buf.cap * size = 0 from empty]
    exact (FrameAlloc.deallocate_zero ..).symm
  · rw [if_pos (show k.heap.provider = true from rfl)]
    exact FrameProvider.deallocate_eq ..

theorem wp_dropBuffer {Q : Unit → Kernel → Prop}
    (done : Q () { k with alloc := k.alloc.deallocateContiguous (buf.ptr / 4096) (divCeil (buf.cap * size) pageSize) }) :
    wp (dropBuffer size buf) Q E k := by
  refine wp_write ?_
  rw [heap_dealloc]
  exact done

theorem reserve_mem {ε : Type} (growth : VecGrowth) (size len : Nat) (buf : Buffer) :
    wp (reserve growth size len buf) (fun _ k' => k'.mem = k.mem) (fun (_ : ε) _ => False) k := by
  unfold reserve
  split
  · exact wp_pure rfl
  · exact wp_bind (wp_newBuffer fun _ _ _ => wp_bind (wp_dropBuffer (wp_pure rfl)))

end

end Kernel

end ProkaKernel
