import ProkaKernel.FreeFrames
import ProkaKernel.UserHeap

namespace ProkaKernel

theorem Buffer.frames_new (cap f size : Nat) :
    (⟨cap, f * 4096⟩ : Buffer).frames size = List.range' f (divCeil (cap * size) pageSize) := by
  rw [Buffer.frames, Nat.mul_div_cancel f (by decide)]

/-- What is left of the allocator's frames when a buffer is given back. -/
def Buffer.release (size : Nat) (buf : Buffer) (a : FrameAlloc) : FrameAlloc :=
  a.deallocateContiguous (buf.ptr / 4096) (divCeil (buf.cap * size) pageSize)

/-- What a push asks of the allocator; `none` if it is refused. -/
def VecGrowth.push (growth : VecGrowth) (size len : Nat) (buf : Buffer) (a : FrameAlloc) : Option (Buffer × FrameAlloc) :=
  if len < buf.cap then some (buf, a)
  else (a.allocateContiguous (divCeil (growth.next buf.cap * size) pageSize)).map fun out =>
    (⟨growth.next buf.cap, out.1 * 4096⟩, buf.release size out.2)

/-- An allocator that hands out no frame of the kernel. -/
structure FrameAlloc.Serving (a : FrameAlloc) : Prop where
  guarded : a.Guarded
  reserved : 0 < a.reserved

section
variable {a a' : FrameAlloc} {n f : Nat}

theorem Stage.serving {s : Sched} {R : Set Nat} {pend : List Nat} {k : Kernel} (stage : Stage s R pend k) : k.alloc.Serving :=
  ⟨stage.owns.guarded, stage.reserved⟩

theorem FrameAlloc.Serving.allocate (serving : a.Serving) (run : a.allocateContiguous n = some (f, a')) : a'.Serving := by
  have hands := serving.guarded.hands run
  exact ⟨hands.guarded, hands.reserved.symm ▸ serving.reserved⟩

theorem FrameAlloc.Serving.release (serving : a.Serving) (buf : Buffer) (size : Nat) : (buf.release size a).Serving := by
  have same : (buf.release size a).reserved = a.reserved := congrArg (fun s => s.2.1) (FrameAlloc.shape_deallocate ..)
  exact ⟨serving.guarded.deallocate .., same.symm ▸ serving.reserved⟩

theorem FrameAlloc.Serving.push {growth : VecGrowth} {size len : Nat} {buf buf' : Buffer} (serving : a.Serving)
    (run : growth.push size len buf a = some (buf', a')) : a'.Serving := by
  unfold VecGrowth.push at run
  split at run
  · cases run
    exact serving
  · obtain ⟨⟨f, a1⟩, taken, same⟩ := Option.map_eq_some_iff.mp run
    cases same
    exact (serving.allocate taken).release buf size

theorem VecGrowth.push_shape {growth : VecGrowth} {size len : Nat} {buf buf' : Buffer}
    (run : growth.push size len buf a = some (buf', a')) : a'.shape = a.shape := by
  unfold VecGrowth.push at run
  split at run
  · cases run
    rfl
  · obtain ⟨⟨f, a1⟩, taken, same⟩ := Option.map_eq_some_iff.mp run
    cases same
    exact (FrameAlloc.shape_deallocate ..).trans (FrameAlloc.shape_allocate taken)

theorem Buffer.release_new (size : Nat) (a : FrameAlloc) : ({} : Buffer).release size a = a := by
  have none : divCeil (({} : Buffer).cap * size) pageSize = 0 := by
    show divCeil (0 * size) pageSize = 0
    rw [Nat.zero_mul]
    rfl
  rw [Buffer.release, none]
  exact FrameAlloc.deallocate_zero ..

/-- The first push takes the frames of the first capacity. -/
theorem VecGrowth.push_new {growth : VecGrowth} {size : Nat} (frames : divCeil (growth.next 0 * size) pageSize = n)
    (run : a.allocateContiguous n = some (f, a')) : growth.push size 0 {} a = some (⟨growth.next 0, f * 4096⟩, a') := by
  have served : growth.push size 0 {} a = (a.allocateContiguous (divCeil (growth.next 0 * size) pageSize)).map fun out =>
      (⟨growth.next 0, out.1 * 4096⟩, ({} : Buffer).release size out.2) := if_neg (Nat.lt_irrefl 0)
  rw [served, frames, run, Option.map_some, Buffer.release_new]

/-- A push that is served finds room, or moves the buffer to new frames. -/
theorem VecGrowth.push_cases {growth : VecGrowth} {size len : Nat} {buf buf' : Buffer} (positive : 0 < size)
    (run : growth.push size len buf a = some (buf', a')) :
    (len < buf.cap ∧ buf' = buf ∧ a' = a) ∨
      ∃ n f a1, ¬len < buf.cap ∧ 0 < n ∧ a.allocateContiguous n = some (f, a1) ∧ buf'.ptr / 4096 = f ∧
        buf'.frames size = List.range' f n ∧ a' = buf.release size a1 := by
  unfold VecGrowth.push at run
  split at run
  · rename_i room
    cases run
    exact Or.inl ⟨room, rfl, rfl⟩
  · rename_i full
    obtain ⟨⟨f, a1⟩, taken, same⟩ := Option.map_eq_some_iff.mp run
    cases same
    have bytes := Nat.mul_pos (Nat.lt_of_le_of_lt (Nat.zero_le _) (growth.grows buf.cap)) positive
    have pages : 0 < divCeil (growth.next buf.cap * size) pageSize := by
      rw [divCeil_page]
      omega
    exact Or.inr ⟨_, f, a1, full, pages, taken, Nat.mul_div_cancel f (by decide), Buffer.frames_new .., rfl⟩

end

namespace Kernel
open Prog

section
variable {ε : Type} {k : Kernel}

theorem dropBuffer_eq (size : Nat) (buf : Buffer) (k : Kernel) :
    (dropBuffer size buf : Prog Kernel ε Unit) k = some (.ok (), { k with alloc := buf.release size k.alloc }) := by
  rw [Buffer.release, ← heap_dealloc]
  rfl

/-- A new buffer comes from the frame allocator, or there is a panic. -/
theorem newBuffer_eq {size cap : Nat} (serving : k.alloc.Serving) (positive : 0 < cap * size) :
    (newBuffer size cap : Prog Kernel ε Buffer) k =
      (k.alloc.allocateContiguous (divCeil (cap * size) pageSize)).map fun out =>
        (.ok ⟨cap, out.1 * 4096⟩, { k with alloc := out.2 }) := by
  unfold newBuffer
  rcases k.heap.alloc_cases (Buffer.layout ⟨cap, 0⟩ size) with ⟨null, reason⟩ | ⟨f, a, _, _, _, run, out⟩
  · rcases reason with empty | coarse | missing | full
    · exact absurd empty (Nat.pos_iff_ne_zero.mp positive)
    · exact absurd coarse (show ¬pageSize < 8 by decide)
    · cases missing
    · rw [null, show k.alloc.allocateContiguous (divCeil (cap * size) pageSize) = none from full]
      rfl
  · have pages : 1 ≤ divCeil (cap * size) pageSize := by
      rw [divCeil_page]
      omega
    have above := (serving.guarded.hands run).above pages
    have reserved := serving.reserved
    rw [out, show k.alloc.allocateContiguous (divCeil (cap * size) pageSize) = some (f, a) from run]
    dsimp only
    rw [if_neg]
    · rfl
    · show ¬f * 4096 = 0
      change k.alloc.reserved + _ ≤ f at above
      omega

theorem reserve_eq {size : Nat} (growth : VecGrowth) (len : Nat) (buf : Buffer) (positive : 0 < size)
    (serving : k.alloc.Serving) :
    (reserve growth size len buf : Prog Kernel ε Buffer) k =
      (growth.push size len buf k.alloc).map fun out => (.ok out.1, { k with alloc := out.2 }) := by
  unfold reserve VecGrowth.push
  split
  · rfl
  · have room := Nat.mul_pos (Nat.lt_of_le_of_lt (Nat.zero_le _) (growth.grows buf.cap)) positive
    have first : (newBuffer size (growth.next buf.cap) : Prog Kernel ε Buffer) k = _ := newBuffer_eq serving room
    cases run : k.alloc.allocateContiguous (divCeil (growth.next buf.cap * size) pageSize) with
    | none =>
      rw [run] at first
      exact bind_none _ first
    | some out =>
      rw [run] at first
      rw [bind_ok first, bind_ok (dropBuffer_eq ..)]
      rfl

theorem ends_newBuffer {E : ε → Kernel → Prop} {P : Prop} {size cap : Nat} {Q : Buffer → Kernel → Prop}
    (serving : k.alloc.Serving) (positive : 0 < cap * size)
    (done : ∀ f a, k.alloc.allocateContiguous (divCeil (cap * size) pageSize) = some (f, a) →
      Q ⟨cap, f * 4096⟩ { k with alloc := a })
    (missing : k.alloc.allocateContiguous (divCeil (cap * size) pageSize) = none → P) :
    ends (newBuffer size cap) Q E P k := by
  unfold ends
  rw [newBuffer_eq serving positive]
  cases run : k.alloc.allocateContiguous (divCeil (cap * size) pageSize) with
  | none => exact missing run
  | some out => exact done out.1 out.2 run

theorem ends_reserve {E : ε → Kernel → Prop} {P : Prop} {size len : Nat} {buf : Buffer} {Q : Buffer → Kernel → Prop}
    (growth : VecGrowth) (positive : 0 < size) (serving : k.alloc.Serving)
    (done : ∀ buf' a, growth.push size len buf k.alloc = some (buf', a) → Q buf' { k with alloc := a })
    (missing : growth.push size len buf k.alloc = none → P) : ends (reserve growth size len buf) Q E P k := by
  unfold ends
  rw [reserve_eq growth len buf positive serving]
  cases run : growth.push size len buf k.alloc with
  | none => exact missing run
  | some out => exact done out.1 out.2 run

theorem wp_reserve_push {E : ε → Kernel → Prop} {size len : Nat} {buf : Buffer} {Q : Buffer → Kernel → Prop}
    (growth : VecGrowth) (positive : 0 < size) (serving : k.alloc.Serving)
    (done : ∀ buf' a, growth.push size len buf k.alloc = some (buf', a) → Q buf' { k with alloc := a }) :
    wp (reserve growth size len buf) Q E k :=
  ends_reserve growth positive serving done fun _ => trivial

end

end Kernel

end ProkaKernel
