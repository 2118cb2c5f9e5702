import ProkaKernel.HardwareWalk
import ProkaKernel.HeapExhaustion

namespace ProkaKernel

/-- The kernel, with the buffers of the `heap_range` of all normal processes. -/
structure HeapKernel where
  kernel : Kernel
  buffers : Nat → Buffer := fun _ => {}

/-- What can happen to the kernel. The memory syscall and the page-fault
handler get the page table that the interrupted process had in CR3. -/
inductive HeapEvent
  | create (data : List UInt8) (priority : Nat)
  | remove (typ : ProcType) (index : Nat)
  | memory (userTable : Nat) (call : MemorySyscall)
  | pagefault (pml4 addr : Nat)
  | tick (regs : Context) (cr3 : Nat)

/-- The event comes from a process on one of these page tables, if it comes
from a process. -/
def HeapEvent.By (tables : Set Nat) : HeapEvent → Prop
  | .memory userTable _ => userTable ∈ tables
  | .pagefault pml4 _ => pml4 ∈ tables
  | _ => True

namespace HeapKernel

section Model
variable (mapper : PageMapper) (growth : VecGrowth) (parse : List UInt8 → Option Image)

/-- The slot of the process on this page table. -/
def caller (h : HeapKernel) (userTable : Nat) : Nat := (Kernel.findProcess h.kernel.sched userTable).getD 0

/-- One call of the process on the page table `userTable`, with its result;
`none` is a panic. -/
def call (h : HeapKernel) (userTable : Nat) (c : MemorySyscall) : Option (Except Int Int × HeapKernel) :=
  match HeapState.call mapper growth userTable ⟨h.kernel, h.buffers (h.caller userTable)⟩ c with
  | none => none
  | some (result, after) =>
    some (result, ⟨after.kernel, Function.update h.buffers (h.caller userTable) after.ranges⟩)

/-- A new process takes a slot; what was there is dropped with its buffer. -/
def replace (h : HeapKernel) (k : Kernel) (pid : Nat) : HeapKernel where
  kernel := { k with alloc := (k.heap.dealloc (h.buffers pid).ptr ((h.buffers pid).layout 16)).frames }
  buffers := Function.update h.buffers pid {}

def create (h : HeapKernel) (data : List UInt8) (priority : Nat) : Option HeapKernel :=
  match Kernel.create mapper parse data priority h.kernel with
  | none => none
  | some (.error _, k) => some { h with kernel := k }
  | some (.ok (), k) =>
    if (parse data).map Image.procType = some .normal then some (h.replace k (k.newestSlot .normal))
    else some { h with kernel := k }

/-- One event; `none` is a panic, which ends the run. -/
def step (h : HeapKernel) : HeapEvent → Option HeapKernel
  | .create data priority => h.create mapper parse data priority
  | .remove typ index => (h.kernel.step mapper parse (.remove typ index)).map fun k => { h with kernel := k }
  | .memory userTable c => (h.call mapper growth userTable c).map Prod.snd
  | .pagefault pml4 addr => (h.kernel.step mapper parse (.pagefault pml4 addr)).map fun k => { h with kernel := k }
  | .tick regs cr3 => (h.kernel.step mapper parse (.tick regs cr3)).map fun k => { h with kernel := k }

/-- All runs, with the level-4 tables of all processes created so far. Any of
these processes may call at any time, also after it was removed. -/
inductive Reach (start : HeapKernel) : HeapKernel → Set Nat → Prop
  | boot : Reach start start ∅
  | next {h h' tables event} : Reach start h tables → event.By tables → h.step mapper growth parse event = some h' →
      Reach start h' (tables ∪ h'.kernel.tables)

end Model

/-- The heap of the process in slot `pid`. -/
def live (h : HeapKernel) (pid : Nat) : List HeapRange := (h.kernel.sched.normalProcess pid).heapRange

/-- The frames of the buffers of some slots. -/
@[irreducible] def bufferFrames (buffers : Nat → Buffer) (slots : List Nat) : List Nat :=
  slots.flatMap fun pid => (buffers pid).frames 16

/-- The frames of all buffers, and of all but one. -/
def held (h : HeapKernel) : List Nat := bufferFrames h.buffers (List.range maxPs)
def heldBut (h : HeapKernel) (pid : Nat) : List Nat := bufferFrames h.buffers ((List.range maxPs).erase pid)

section Buffers
variable {h : HeapKernel} {pid : Nat}

theorem bufferFrames_perm (bound : pid < maxPs) (buffers : Nat → Buffer) :
    (bufferFrames buffers (List.range maxPs)).Perm
      ((buffers pid).frames 16 ++ bufferFrames buffers ((List.range maxPs).erase pid)) := by
  unfold bufferFrames
  exact (List.perm_cons_erase (List.mem_range.mpr bound)).flatMap_right _

theorem held_perm (bound : pid < maxPs) : h.held.Perm ((h.buffers pid).frames 16 ++ h.heldBut pid) :=
  bufferFrames_perm bound h.buffers

theorem held_update (bound : pid < maxPs) (k : Kernel) (buf : Buffer) :
    (held ⟨k, Function.update h.buffers pid buf⟩).Perm (buf.frames 16 ++ h.heldBut pid) := by
  have perm := bufferFrames_perm bound (Function.update h.buffers pid buf)
  have same : bufferFrames (Function.update h.buffers pid buf) ((List.range maxPs).erase pid) = h.heldBut pid := by
    unfold heldBut bufferFrames
    refine List.flatMap_congr fun i member => ?_
    have other : i ≠ pid := (List.nodup_range.mem_erase_iff.mp member).1
    rw [Function.update_of_ne other]
  rw [same, Function.update_self] at perm
  exact perm

end Buffers

/-- What holds between any two events: the address spaces and the buffers keep
their frames apart, and every heap consists of its ranges, which are mapped. -/
structure Sound (h : HeapKernel) (R : Set Nat) : Prop where
  stage : Stage h.kernel.sched R h.held h.kernel
  slots : Slots h.kernel.sched (spacesFor h.kernel.mem R)
  small : SmallPages h.kernel.mem R
  sized : h.kernel.alloc.Sized
  shaped : ∀ pid, Shaped (h.live pid)
  mapped : ∀ pid, ∀ page ∈ heapPages (h.live pid), page < 2 ^ 35 ∧
    ∃ root ∈ R, (h.kernel.sched.normalProcess pid).tableAddr = root * 4096 ∧ translate h.kernel.mem root page ≠ none

section Invariant
variable {h : HeapKernel} {R : Set Nat} {root pid : Nat}

theorem Sound.valid (sound : h.Sound R) : h.kernel.Valid R := ⟨sound.stage.forget fun _ => id, sound.slots⟩

theorem Sound.trail (sound : h.Sound R) : Trail True (h.kernel.snapshot R h.held) h.kernel.sched R h.held h.kernel :=
  sound.stage.trail

theorem Sound.owned (sound : h.Sound R) : (h.kernel.snapshot R h.held).Owned := sound.stage.owns

/-- What edits keep in any case. -/
theorem Sound.edited {back : Prop} {R' : Set Nat} {pend : List Nat} {k : Kernel} (sound : h.Sound R)
    (edits : Edits back False (h.kernel.snapshot R h.held) (k.snapshot R' pend)) :
    SmallPages k.mem R' ∧ k.alloc.Sized ∧ (R ⊆ R' → ∀ typ, spacesFor h.kernel.mem R typ ⊆ spacesFor k.mem R' typ) := by
  refine ⟨edits.lowEntries entryRule_single sound.owned sound.small, sound.sized.of_shape edits.shape, ?_⟩
  intro grows typ r space
  have upper := space.2.edits edits sound.owned space.1
  exact ⟨grows space.1, upper⟩

/-- The process that is found by its table. -/
theorem found_table (found : Kernel.findProcess h.kernel.sched (root * 4096) = some pid) :
    pid < maxPs ∧ (h.kernel.sched.normalProcess pid).tableAddr = root * 4096 ∧ h.caller (root * 4096) = pid := by
  obtain ⟨bound, same, _⟩ := firstSlot_some found
  exact ⟨bound, eq_of_beq same, by rw [caller, found, Option.getD_some]⟩

theorem Sound.caller_pages (sound : h.Sound R) (found : Kernel.findProcess h.kernel.sched (root * 4096) = some pid) :
    ∀ page ∈ heapPages (h.live pid), page < 2 ^ 35 ∧ translate h.kernel.mem root page ≠ none := by
  intro page inside
  obtain ⟨bound, r, _, table, there⟩ := sound.mapped pid page inside
  have same : r = root := by
    rw [(found_table found).2.1] at table
    omega
  exact ⟨bound, same ▸ there⟩

/-- No two slots share a table. -/
theorem Sound.other_root {pid' root' : Nat} (sound : h.Sound R) (member : root ∈ R)
    (found : Kernel.findProcess h.kernel.sched (root * 4096) = some pid) (other : pid' ≠ pid)
    (table : (h.kernel.sched.normalProcess pid').tableAddr = root' * 4096) : root' ≠ root := by
  rintro rfl
  have nonzero := sound.stage.root_pos member
  have same := (found_table found).2.1
  have distinct := sound.slots.distinct .normal pid' .normal pid
  refine other (distinct ?_ (table.trans same.symm)).2
  show (h.kernel.sched.normalProcess pid').tableAddr ≠ 0
  omega

/-- A call that leads from one sound state to the next. -/
structure Keeps (R : Set Nat) (h h' : HeapKernel) : Prop where
  sound : h'.Sound R
  trail : Trail True (h.kernel.snapshot R h.held) h'.kernel.sched R h'.held h'.kernel

theorem Sound.keeps (sound : h.Sound R) : Keeps R h h := ⟨sound, sound.trail⟩

/-- The end of a heap call, whatever its result. -/
theorem Sound.after_call {k : Kernel} {ranges : List HeapRange} {buf : Buffer} {extra : List Nat} (sound : h.Sound R)
    (member : root ∈ R) (found : Kernel.findProcess h.kernel.sched (root * 4096) = some pid)
    (trail : Trail True (h.kernel.snapshot R h.held) k.sched R (extra ++ (buf.frames 16 ++ h.heldBut pid)) k)
    (sched : k.sched = Kernel.withHeap h.kernel.sched pid ranges) (shaped : Shaped ranges)
    (own : ∀ page ∈ heapPages ranges, page < 2 ^ 35 ∧ translate k.mem root page ≠ none)
    (others : ∀ r ∈ R, r ≠ root → ∀ page, page < 2 ^ 35 → translate k.mem r page = translate h.kernel.mem r page) :
    Keeps R h ⟨k, Function.update h.buffers pid buf⟩ := by
  obtain ⟨bound, table, _⟩ := found_table found
  have after := trail.discard.perm (held_update bound k buf).symm
  obtain ⟨small, sized, spaces⟩ := sound.edited trail.edits
  have here : (k.sched.normalProcess pid) = { h.kernel.sched.normalProcess pid with heapRange := ranges } := by
    rw [sched]
    exact Function.update_self ..
  have there {i : Nat} (other : i ≠ pid) : k.sched.normalProcess i = h.kernel.sched.normalProcess i := by
    rw [sched]
    exact Function.update_of_ne other ..
  refine ⟨⟨after.stage, ?_, small, sized, fun i => ?_, fun i page inside => ?_⟩, after⟩
  · show Slots k.sched _
    rw [sched]
    exact (sound.slots.withHeap pid ranges).mono (spaces fun _ => id)
  · show Shaped (k.sched.normalProcess i).heapRange
    by_cases same : i = pid
    · rw [same, here]
      exact shaped
    · rw [there same]
      exact sound.shaped i
  · change page ∈ heapPages (k.sched.normalProcess i).heapRange at inside
    show page < 2 ^ 35 ∧ ∃ r ∈ R, (k.sched.normalProcess i).tableAddr = r * 4096 ∧ translate k.mem r page ≠ none
    by_cases same : i = pid
    · rw [same, here] at inside
      obtain ⟨low, mapped⟩ := own page inside
      refine ⟨low, root, member, ?_, mapped⟩
      rw [same, here]
      exact table
    · rw [there same] at inside ⊢
      obtain ⟨low, r, known, table', mapped⟩ := sound.mapped i page inside
      refine ⟨low, r, known, table', ?_⟩
      rw [others r known (sound.other_root member found same table') page low]
      exact mapped

theorem withHeap_self (s : Sched) (pid : Nat) : Kernel.withHeap s pid (s.normalProcess pid).heapRange = s := by
  have same : Function.update s.normalProcess pid
      { s.normalProcess pid with heapRange := (s.normalProcess pid).heapRange } = s.normalProcess :=
    Function.update_eq_self pid s.normalProcess
  rw [Kernel.withHeap, same]

end Invariant

end HeapKernel

namespace Kernel
variable {k : Kernel} {userTable : Nat}

theorem allocateHeap_early (mapper : PageMapper) (growth : VecGrowth) {size : Nat} (buf : Buffer)
    (early : size = 0 ∨ findProcess k.sched userTable = none) :
    allocateHeap mapper growth userTable size buf k = some (.error (if size = 0 then -16 else -17), k) := by
  unfold allocateHeap
  split
  · rfl
  · rename_i positive
    rw [Prog.read_bind, early.resolve_left positive]
    rfl

theorem deallocate_unknown (mapper : PageMapper) (addr : Nat) (missing : findProcess k.sched userTable = none) :
    deallocate mapper userTable addr k = some (.error (-16), k) := by
  unfold deallocate
  rw [Prog.read_bind, missing]
  rfl

end Kernel

namespace HeapKernel

section Calls
variable {h h' : HeapKernel} {R : Set Nat} {root pid userTable : Nat} {result : Except Int Int} {growth : VecGrowth}

theorem call_cases {mapper : PageMapper} {c : MemorySyscall} (run : h.call mapper growth userTable c = some (result, h')) :
    ∃ after, HeapState.call mapper growth userTable ⟨h.kernel, h.buffers (h.caller userTable)⟩ c = some (result, after) ∧
      h' = ⟨after.kernel, Function.update h.buffers (h.caller userTable) after.ranges⟩ := by
  unfold call at run
  split at run
  · cases run
  · rename_i result' after out
    cases run
    exact ⟨after, out, rfl⟩

/-- The buffers stay when ranges are given back. -/
theorem deallocate_buffers {mapper : PageMapper} {addr : UInt64}
    (run : h.call mapper growth userTable (.deallocate addr) = some (result, h')) : h'.buffers = h.buffers := by
  obtain ⟨after, out, rfl⟩ := call_cases run
  have same := (HeapState.deallocate_cases growth out).1
  show Function.update h.buffers _ after.ranges = h.buffers
  rw [same, Function.update_eq_self]

theorem same_buffers (h : HeapKernel) (pid : Nat) :
    (⟨h.kernel, Function.update h.buffers pid (h.buffers pid)⟩ : HeapKernel) = h := by
  rw [Function.update_eq_self]

/-- Nothing happens if nothing is asked for. -/
theorem allocate_early (mapper : PageMapper) (growth : VecGrowth) {size : UInt64}
    (early : size.toNat = 0 ∨ Kernel.findProcess h.kernel.sched userTable = none) :
    ∃ e, h.call mapper growth userTable (.allocate size) = some (.error e, h) := by
  refine ⟨if size.toNat = 0 then -16 else -17, ?_⟩
  rw [call, HeapState.call, Kernel.allocateHeap_early mapper growth _ early]
  dsimp only
  rw [same_buffers]

/-- Nothing happens for a caller that no slot has. -/
theorem call_unknown (mapper : PageMapper) (growth : VecGrowth) (c : MemorySyscall)
    (missing : Kernel.findProcess h.kernel.sched userTable = none) :
    ∃ e, h.call mapper growth userTable c = some (.error e, h) := by
  cases c with
  | allocate size => exact allocate_early mapper growth (Or.inr missing)
  | deallocate addr =>
    refine ⟨-16, ?_⟩
    rw [call, HeapState.call, Kernel.deallocate_unknown mapper _ missing]
    dsimp only
    rw [same_buffers]

variable {mapper : ExactMapper}

/-- A successful `allocate`. -/
theorem Sound.granted {size : UInt64} {addr : Int} (sound : h.Sound R) (member : root ∈ R)
    (found : Kernel.findProcess h.kernel.sched (root * 4096) = some pid)
    (run : h.call mapper.toPageMapper growth (root * 4096) (.allocate size) = some (.ok addr, h')) :
    addr = (Kernel.heapTop (h.live pid) : Int) ∧ size.toNat ≠ 0 ∧
      h'.kernel.sched = Kernel.withHeap h.kernel.sched pid (h.live pid ++ [Kernel.nextRange (h.live pid) size.toNat]) ∧
      ∃ buf, h' = ⟨h'.kernel, Function.update h.buffers pid buf⟩ ∧
        Granted (h.kernel.snapshot R h.held) h.kernel R root (h.buffers pid) buf (h.heldBut pid)
          { page | page ∈ List.range' (Kernel.heapTop (h.live pid) / 4096) (divCeil size.toNat pageSize) } h'.kernel := by
  obtain ⟨bound, table, slot⟩ := found_table found
  obtain ⟨after, out, rfl⟩ := call_cases run
  rw [slot] at out ⊢
  have trail := sound.trail.perm (held_perm bound)
  have post := Kernel.allocateHeap_call mapper growth size.toNat found (heapTop_spec (sound.shaped pid)).1 trail member
  rcases HeapState.allocate_cases growth out with ⟨_, same, ran⟩ | ⟨_, same, _⟩
  · cases same
    obtain ⟨_, _, rfl, rfl, value, positive, sched, granted⟩ := post.ok ran
    exact ⟨value, positive, sched, _, rfl, granted⟩
  · cases same

/-- A refused `allocate`. -/
theorem Sound.refused {size : UInt64} {e : Int} (sound : h.Sound R) (member : root ∈ R)
    (found : Kernel.findProcess h.kernel.sched (root * 4096) = some pid)
    (run : h.call mapper.toPageMapper growth (root * 4096) (.allocate size) = some (.error e, h')) :
    h' = { h with kernel := h'.kernel } ∧
      Kernel.allocateHeap mapper.toPageMapper growth (root * 4096) size.toNat (h.buffers pid) h.kernel =
        some (.error e, h'.kernel) ∧
      ∃ lost, InCall (h.kernel.snapshot R h.held) h.kernel.sched h.kernel R root ∅ lost
        ((h.buffers pid).frames 16 ++ h.heldBut pid) ∅ h'.kernel := by
  obtain ⟨bound, table, slot⟩ := found_table found
  obtain ⟨after, out, rfl⟩ := call_cases run
  rw [slot] at out ⊢
  have trail := sound.trail.perm (held_perm bound)
  have post := Kernel.allocateHeap_call mapper growth size.toNat found (heapTop_spec (sound.shaped pid)).1 trail member
  rcases HeapState.allocate_cases growth out with ⟨_, same, _⟩ | ⟨_, same, buffer, ran⟩
  · cases same
  · cases same
    rw [buffer, Function.update_eq_self]
    exact ⟨rfl, ran, post.error ran⟩

theorem Sound.allocate {size : UInt64} (sound : h.Sound R) (member : root ∈ R)
    (found : Kernel.findProcess h.kernel.sched (root * 4096) = some pid)
    (run : h.call mapper.toPageMapper growth (root * 4096) (.allocate size) = some (result, h')) : Keeps R h h' := by
  have pages := sound.caller_pages found
  cases result with
  | ok addr =>
    obtain ⟨_, positive, sched, buf, same, _, _, _, extra, call, _, order, _⟩ := sound.granted member found run
    obtain ⟨shaped, span⟩ := (sound.shaped pid).push positive
    rw [same]
    refine sound.after_call member found (call.trail.perm order) sched shaped (fun page inside => ?_)
      fun r known other page low => call.kept r known page low fun both => other both.1
    by_cases new : page ∈ List.range' (Kernel.heapTop (h.live pid) / 4096) (divCeil size.toNat pageSize)
    · obtain ⟨f, there, _⟩ := call.mapped page new
      rw [there]
      exact ⟨call.low page new, Option.some_ne_none f⟩
    · rw [span] at inside
      obtain ⟨low, mapped⟩ := pages page (inside.resolve_right new)
      rw [call.kept root member page low fun both => new both.2]
      exact ⟨low, mapped⟩
  | error e =>
    obtain ⟨same, _, lost, call⟩ := sound.refused member found run
    have sched : h'.kernel.sched = Kernel.withHeap h.kernel.sched pid (h.live pid) :=
      call.trail.stage.sched.trans (withHeap_self _ _).symm
    have kept {r : Nat} (known : r ∈ R) {page : Nat} (low : page < 2 ^ 35) := call.kept r known page low fun both => both.2
    have after := sound.after_call member found (call.trail.stage.sched.symm ▸ call.trail) sched
      (sound.shaped pid) (fun page inside => ?_) fun r known _ page low => kept known low
    · rw [Function.update_eq_self] at after
      exact same ▸ after
    · obtain ⟨low, mapped⟩ := pages page inside
      rw [kept member low]
      exact ⟨low, mapped⟩

/-- A range was taken off, with its pages and no other page of any process. -/
structure Freed (h : HeapKernel) (R : Set Nat) (root pid : Nat) (r : HeapRange) (rest : List HeapRange) (k : Kernel) :
    Prop where
  sched : k.sched = Kernel.withHeap h.kernel.sched pid rest
  trail : Trail True (h.kernel.snapshot R h.held) k.sched R h.held k
  pages : ∀ q ∈ R, ∀ page, page < 2 ^ 35 → translate k.mem q page =
    if q = root ∧ r.start ≤ page * 4096 ∧ page * 4096 < r.stop then none else translate h.kernel.mem q page

/-- A call of `deallocate` takes off the first range with the address, or it
fails because there is none. -/
theorem Sound.freed (sound : h.Sound R) (member : root ∈ R)
    (found : Kernel.findProcess h.kernel.sched (root * 4096) = some pid) (addr : UInt64) :
    (∃ before r after k, h.live pid = before ++ r :: after ∧ Kernel.HeapRange.contains r addr.toNat = true ∧
      h.call mapper.toPageMapper growth (root * 4096) (.deallocate addr) = some (.ok 0, { h with kernel := k }) ∧
      h.Freed R root pid r (before ++ after) k) ∨
    (h.call mapper.toPageMapper growth (root * 4096) (.deallocate addr) = some (.error (-17), h) ∧
      ∀ r ∈ h.live pid, Kernel.HeapRange.contains r addr.toNat = false) := by
  have pages := sound.caller_pages found
  have post := Kernel.deallocate_pages mapper addr.toNat found (sound.shaped pid) pages sound.trail member
  obtain ⟨⟨result, k⟩, out⟩ := Kernel.deallocate_returns mapper.toPageMapper addr.toNat found (sound.shaped pid)
    fun page inside => (pages page inside).1
  have run : h.call mapper.toPageMapper growth (root * 4096) (.deallocate addr) = some (result, { h with kernel := k }) := by
    rw [call, HeapState.call, out]
    dsimp only
    rw [Function.update_eq_self]
  rw [run]
  cases result with
  | ok value =>
    obtain ⟨rfl, before, r, after, live, contains, sched, trail, unmapped⟩ := post.ok out
    exact Or.inl ⟨before, r, after, k, live, contains, rfl, sched, trail, unmapped⟩
  | error e =>
    obtain ⟨rfl, rfl, missing⟩ := post.error out
    exact Or.inr ⟨rfl, missing⟩

theorem Sound.deallocate {addr : UInt64} (sound : h.Sound R) (member : root ∈ R)
    (found : Kernel.findProcess h.kernel.sched (root * 4096) = some pid)
    (run : h.call mapper.toPageMapper growth (root * 4096) (.deallocate addr) = some (result, h')) : Keeps R h h' := by
  rcases sound.freed member found addr with ⟨before, r, after, k, live, _, out, freed⟩ | ⟨out, _⟩
  · cases Option.some.inj (out.symm.trans run)
    obtain ⟨bound, _⟩ := found_table found
    have perm : (h.live pid).Perm (r :: (before ++ after)) := live ▸ List.perm_middle
    have split := (sound.shaped pid).perm perm
    have order : Trail True _ k.sched R ([] ++ ((h.buffers pid).frames 16 ++ h.heldBut pid)) k :=
      freed.trail.perm (held_perm bound)
    have next := sound.after_call member found order freed.sched
      (Shaped.cons_iff.mp split).2 (fun page inside => ?_) fun q known other page low => ?_
    · rw [Function.update_eq_self] at next
      exact next
    · have aligned := (Shaped.cons_iff.mp split).1.2.1
      have old : page ∈ heapPages (h.live pid) := by
        rw [heapPages_perm perm, heapPages_cons aligned]
        exact Or.inl inside
      obtain ⟨low, mapped⟩ := sound.caller_pages found page old
      rw [freed.pages root member page low, if_neg]
      · exact ⟨low, mapped⟩
      · exact fun both => split.pages_apart page ((mem_pages_iff aligned page).mpr both.2) inside
    · rw [freed.pages q known page low, if_neg fun both => other both.1]
  · cases Option.some.inj (out.symm.trans run)
    exact sound.keeps

theorem Sound.call {c : MemorySyscall} (sound : h.Sound R) (member : root ∈ R)
    (run : h.call mapper.toPageMapper growth (root * 4096) c = some (result, h')) : Keeps R h h' := by
  cases found : Kernel.findProcess h.kernel.sched (root * 4096) with
  | none =>
    obtain ⟨e, out⟩ := call_unknown mapper.toPageMapper growth c found
    cases Option.some.inj (out.symm.trans run)
    exact sound.keeps
  | some pid =>
    cases c with
    | allocate size => exact sound.allocate member found run
    | deallocate addr => exact sound.deallocate member found run

end Calls

section Events
variable {h h' : HeapKernel} {R : Set Nat} {mapper : ExactMapper} {growth : VecGrowth} {parse : List UInt8 → Option Image}

/-- An event that keeps the mapped pages of all processes, and the heaps of
the slots other than `fresh`, which gets an empty one. -/
theorem Sound.other {R' : Set Nat} {k : Kernel} (sound : h.Sound R) (goes : Kernel.Goes R R' h.kernel k) (fresh : Set Nat)
    (pages : ∀ r ∈ R, ∀ page f, page < 2 ^ 35 → translate h.kernel.mem r page = some f → translate k.mem r page = some f)
    (empty : ∀ pid ∈ fresh, (k.sched.slot .normal pid).heapRange = [])
    (kept : ∀ pid ∉ fresh, (k.sched.slot .normal pid).tableAddr = (h.kernel.sched.slot .normal pid).tableAddr ∧
      (k.sched.slot .normal pid).heapRange = (h.kernel.sched.slot .normal pid).heapRange) :
    Sound { h with kernel := k } R' := by
  have first : Edits True False (h.kernel.snapshot R h.held) (h.kernel.snapshot R []) :=
    .single (.drop fun _ none => absurd none List.not_mem_nil)
  obtain ⟨small, sized, _⟩ := sound.edited (first.trans goes.edits)
  refine ⟨sound.stage.hold goes.edits goes.valid.stage, goes.valid.slots, small, sized, fun pid => ?_, fun pid page inside => ?_⟩
  · show Shaped (k.sched.slot .normal pid).heapRange
    by_cases new : pid ∈ fresh
    · rw [empty pid new]
      exact Shaped.nil
    · rw [(kept pid new).2]
      exact sound.shaped pid
  · change page ∈ heapPages (k.sched.slot .normal pid).heapRange at inside
    by_cases new : pid ∈ fresh
    · rw [empty pid new, heapPages_nil] at inside
      exact inside.elim
    · rw [(kept pid new).2] at inside
      obtain ⟨low, root, member, table, mapped⟩ := sound.mapped pid page inside
      obtain ⟨f, there⟩ := Option.ne_none_iff_exists'.mp mapped
      refine ⟨low, root, goes.grows member, (kept pid new).1.trans table, ?_⟩
      show translate k.mem root page ≠ none
      rw [pages root member page f low there]
      exact Option.some_ne_none f

/-- A slot is given up, and its buffer with it. -/
theorem Sound.drop {pid : Nat} (sound : h.Sound R) (bound : pid < maxPs) : (h.replace h.kernel pid).Sound R := by
  have trail := (sound.trail.perm (held_perm bound)).releaseRun
  unfold replace
  rw [Kernel.heap_dealloc]
  obtain ⟨small, sized, _⟩ := sound.edited trail.edits
  refine ⟨trail.stage.perm ?_, sound.slots, small, sized, sound.shaped, sound.mapped⟩
  have order (k : Kernel) := held_update (h := h) bound k ({} : Buffer)
  exact (order _).symm

end Events

end HeapKernel

namespace Kernel
open Prog

section Spares
variable {k : Kernel} {R : Set Nat} (mapper : PageMapper) (parse : List UInt8 → Option Image)

/-- A kernel call that takes no page away from any process. -/
structure Spares (R R' : Set Nat) (k k' : Kernel) : Prop extends Goes R R' k k' where
  pages : ∀ r ∈ R, ∀ page f, page < 2 ^ 35 → translate k.mem r page = some f → translate k'.mem r page = some f

theorem Goes.spares {R' : Set Nat} {k' : Kernel} (valid : k.Valid R) (goes : Goes R R' k k')
    (edits : Edits False False (k.snapshot R []) (k'.snapshot R' [])) : Spares R R' k k' :=
  { goes with pages := fun _ member _ _ low there => edits.leaf valid.stage.owns member low there }

theorem create_spares (data : List UInt8) (priority : Nat) (valid : k.Valid R) :
    wp (create mapper parse data priority)
      (fun _ k' => ∃ image R', parse data = some image ∧ Spares R R' k k' ∧ k'.newestSlot image.procType < maxPs ∧
        (k'.sched.slot image.procType (k'.newestSlot image.procType)).heapRange = [] ∧
        ∀ pid, ¬(.normal = image.procType ∧ pid = k'.newestSlot image.procType) →
          k'.sched.slot .normal pid = k.sched.slot .normal pid)
      (fun _ k' => k'.sched = k.sched ∧ ∃ R', Spares R R' k k') k := by
  refine (create_wp mapper parse data priority valid.stage).mono ?_ ?_
  · rintro _ k' ⟨image, root, id, infos, stackBase, parsed, spawned⟩
    have goes : Goes R (insert root R) k k' :=
      ⟨Set.subset_insert root R, spawned.valid valid, spawned.edits.mono False.elim False.elim⟩
    refine ⟨image, insert root R, parsed, goes.spares valid spawned.edits, ?_⟩
    rw [newestSlot_created spawned.created, spawned.created.slot]
    exact ⟨spawned.created.bound, rfl, spawned.created.others .normal⟩
  · rintro _ k' ⟨R', grows, trail⟩
    have goes := valid.goes grows ⟨trail.stage, trail.edits.mono False.elim False.elim⟩
    exact ⟨trail.stage.sched, R', goes.spares valid trail.edits⟩

theorem remove_spares (typ : ProcType) (index : Nat) (valid : k.Valid R) :
    wp (remove mapper typ index) (fun _ k' => Spares R R k k' ∧ Removed k.sched k'.sched typ index)
      (fun _ k' => k' = k) k := by
  have goes := remove_wp mapper typ index valid
  have kept : wp (remove mapper typ index)
      (fun _ k' => (∀ r ∈ R, ∀ page, page < 2 ^ 35 → translate k'.mem r page = translate k.mem r page) ∧
        Removed k.sched k'.sched typ index) (fun _ k' => k' = k) k := by
    refine wp_bind (wp_read ?_)
    split
    · exact wp_fail rfl
    · rename_i s' run
      have removed := remove_removed run
      obtain ⟨r, ⟨member, _⟩, table⟩ := valid.slots.rooted typ index (valid.slots.present typ index removed.present)
      rw [table, Nat.mul_div_cancel r (by decide)]
      refine wp_bind (wp_cleanUp mapper fun m a cleaned => wp_write ⟨fun r' known page low => ?_, removed⟩)
      have trim := mapper.cleanUp_trims (valid.stage.owns.single member) cleaned
      exact trim.leaves valid.stage.owns member known low
  refine (goes.and kept).mono ?_ fun _ _ both => both.2
  rintro _ k' ⟨goes, pages, removed⟩
  exact ⟨{ goes with pages := fun r member page f low there => (pages r member page low).trans there }, removed⟩

theorem pagefault_spares {ε : Type} {E : ε → Kernel → Prop} {root : Nat} (addr : Nat) (valid : k.Valid R)
    (member : root ∈ R) :
    wp (pagefault mapper (root * 4096) addr) (fun _ k' => Spares R R k k' ∧ k'.sched = k.sched) E k := by
  refine (pagefault_trail mapper addr valid.stage member).mono (fun _ k' trail => ?_) fun _ _ => id
  have goes := valid.goes (fun _ => id) ⟨trail.stage, trail.edits.mono False.elim False.elim⟩
  exact ⟨goes.spares valid trail.edits, trail.stage.sched⟩

end Spares

end Kernel

namespace HeapKernel

section Runs
variable {h h' : HeapKernel} {R : Set Nat} {mapper : ExactMapper} {growth : VecGrowth} {parse : List UInt8 → Option Image}

theorem Sound.create {data : List UInt8} {priority : Nat} (sound : h.Sound R)
    (run : h.create mapper.toPageMapper parse data priority = some h') : ∃ R', R ⊆ R' ∧ h'.Sound R' := by
  have post := Kernel.create_spares mapper.toPageMapper parse data priority sound.valid
  unfold HeapKernel.create at run
  split at run
  · cases run
  · rename_i e k out
    obtain ⟨same, R', spares⟩ := post.error out
    cases run
    refine ⟨R', spares.grows, sound.other spares.toGoes ∅ spares.pages (fun _ none => none.elim) fun pid _ => ?_⟩
    rw [same]
    exact ⟨rfl, rfl⟩
  · rename_i k out
    obtain ⟨image, R', parsed, spares, bound, empty, others⟩ := post.ok out
    rw [parsed] at run
    refine ⟨R', spares.grows, ?_⟩
    cases typ : image.procType with
    | normal =>
      rw [typ] at bound empty others
      rw [Option.map_some, typ, if_pos rfl] at run
      have next := sound.other spares.toGoes {k.newestSlot .normal} spares.pages (fun pid new => new ▸ empty)
        fun pid old => by rw [others pid fun both => old both.2]; exact ⟨rfl, rfl⟩
      cases run
      exact next.drop bound
    | driver =>
      rw [Option.map_some, typ, if_neg (by decide)] at run
      cases run
      refine sound.other spares.toGoes ∅ spares.pages (fun _ none => none.elim) fun pid _ => ?_
      rw [others pid fun both => by rw [typ] at both; cases both.1]
      exact ⟨rfl, rfl⟩

theorem Sound.remove {typ : ProcType} {index : Nat} {k : Kernel} (sound : h.Sound R)
    (run : h.kernel.step mapper.toPageMapper parse (.remove typ index) = some k) : Sound { h with kernel := k } R := by
  refine Kernel.of_run (P := fun k => Sound { h with kernel := k } R)
    ((Kernel.remove_spares mapper.toPageMapper typ index sound.valid).mono ?_ ?_) run
  · rintro _ k ⟨spares, removed⟩
    refine sound.other spares.toGoes ∅ spares.pages (fun _ none => none.elim) fun pid _ => ?_
    by_cases here : .normal = typ ∧ pid = index
    · obtain ⟨rfl, rfl⟩ := here
      rw [removed.slot]
      exact ⟨rfl, rfl⟩
    · rw [removed.others .normal pid here]
      exact ⟨rfl, rfl⟩
  · rintro _ k rfl
    exact sound

theorem Sound.pagefault {root addr : Nat} {k : Kernel} (sound : h.Sound R) (member : root ∈ R)
    (run : h.kernel.step mapper.toPageMapper parse (.pagefault (root * 4096) addr) = some k) :
    Sound { h with kernel := k } R := by
  refine Kernel.of_run (P := fun k => Sound { h with kernel := k } R)
    ((Kernel.pagefault_spares mapper.toPageMapper addr sound.valid member).mono ?_ fun _ _ => id) run
  rintro _ k ⟨spares, same⟩
  refine sound.other spares.toGoes ∅ spares.pages (fun _ none => none.elim) fun pid _ => ?_
  rw [same]
  exact ⟨rfl, rfl⟩

theorem Sound.tick {regs : Context} {cr3 : Nat} {k : Kernel} (sound : h.Sound R)
    (run : h.kernel.step mapper.toPageMapper parse (.tick regs cr3) = some k) : Sound { h with kernel := k } R := by
  obtain ⟨s', ticked, rfl⟩ := Option.map_eq_some_iff.mp run
  have goes : Kernel.Goes R R h.kernel { h.kernel with sched := s' } :=
    ⟨fun _ => id, ⟨sound.valid.stage.resched, sound.slots.tick ticked⟩, .refl⟩
  refine sound.other goes ∅ (fun _ _ _ _ _ => id) (fun _ none => none.elim) fun pid _ => ?_
  obtain ⟨table, _, heap⟩ := tick_slot_kept ticked .normal pid
  exact ⟨table, heap⟩

/-- Every event keeps the address spaces and the buffers apart, and the heaps
in order. -/
theorem Sound.step {tables : Set Nat} {event : HeapEvent} (sound : h.Sound R)
    (known : ∀ t ∈ tables, ∃ r ∈ R, t = r * 4096) (caller : event.By tables)
    (run : h.step mapper.toPageMapper growth parse event = some h') : ∃ R', R ⊆ R' ∧ h'.Sound R' := by
  cases event with
  | create data priority => exact sound.create run
  | remove typ index =>
    obtain ⟨k, out, rfl⟩ := Option.map_eq_some_iff.mp run
    exact ⟨R, fun _ => id, sound.remove out⟩
  | memory userTable c =>
    obtain ⟨root, member, rfl⟩ := known userTable caller
    obtain ⟨⟨result, _⟩, out, rfl⟩ := Option.map_eq_some_iff.mp run
    exact ⟨R, fun _ => id, (sound.call member out).sound⟩
  | pagefault pml4 addr =>
    obtain ⟨root, member, rfl⟩ := known pml4 caller
    obtain ⟨k, out, rfl⟩ := Option.map_eq_some_iff.mp run
    exact ⟨R, fun _ => id, sound.pagefault member out⟩
  | tick regs cr3 =>
    obtain ⟨k, out, rfl⟩ := Option.map_eq_some_iff.mp run
    exact ⟨R, fun _ => id, sound.tick out⟩

/-- The machine before the first process. -/
theorem Sound.boot {map : MemoryMap} {start : Kernel} (boot : start.Boot map) : Sound ⟨start, fun _ => {}⟩ ∅ := by
  have empty (pid : Nat) : live ⟨start, fun _ => {}⟩ pid = [] := by
    show (start.sched.normalProcess pid).heapRange = []
    rw [boot.sched]
  have unbuffered : held ⟨start, fun _ => {}⟩ = [] := by
    unfold held bufferFrames
    exact List.flatMap_eq_nil_iff.mpr fun _ _ => show ({} : Buffer).frames 16 = [] from rfl
  refine ⟨?_, boot.valid.slots, fun _ none => none.elim, boot.sized, fun pid => ?_, fun pid page inside => ?_⟩
  · rw [unbuffered]
    exact boot.valid.stage
  · rw [empty]
    exact Shaped.nil
  · rw [empty, heapPages_nil] at inside
    exact inside.elim

/-- The state of the machine is sound in every run. -/
theorem Reach.sound {map : MemoryMap} {start : Kernel} {tables : Set Nat} (boot : start.Boot map)
    (reach : Reach mapper.toPageMapper growth parse ⟨start, fun _ => {}⟩ h tables) :
    ∃ R, h.Sound R ∧ ∀ t ∈ tables, ∃ r ∈ R, t = r * 4096 := by
  induction reach with
  | boot => exact ⟨∅, Sound.boot boot, fun _ none => none.elim⟩
  | next _ caller run ih =>
    obtain ⟨R, sound, known⟩ := ih
    obtain ⟨R', grows, sound'⟩ := sound.step known caller run
    exact ⟨R', sound', sound'.valid.known_tables grows known⟩

end Runs

/-- The first process asks for one byte. -/
theorem first_grant : ∃ h h1 tables, Reach FourLevel.exactMapper.toPageMapper .amortized flatParse
    ⟨smallKernel, fun _ => {}⟩ h tables ∧ 0x1e02 * 4096 ∈ tables ∧
    Kernel.findProcess h.kernel.sched (0x1e02 * 4096) = some 0 ∧
    FrameAlloc.Used h.kernel.alloc.bitmap (h.kernel.alloc.reserved + h.kernel.alloc.selfUsedPage) ∧
    h.call FourLevel.exactMapper.toPageMapper .amortized (0x1e02 * 4096) (.allocate 1) = some (.ok 0x180000000, h1) ∧
    (h1.buffers 0).frames 16 = [0x1e0f] ∧ ¬FrameAlloc.Used h.kernel.alloc.bitmap 0x1e0f ∧
    (hwWalk h1.kernel.mem 0x1e02 (pagePath 0x7fffffffe)).any (List.all · fun e => e / 2 % 4 == 3) = true := by
  have run : (((⟨smallKernel, fun _ => {}⟩ : HeapKernel).step FourLevel.exactMapper.toPageMapper .amortized flatParse
      (.create [0x90] 0)).bind fun h =>
      (h.call FourLevel.exactMapper.toPageMapper .amortized (0x1e02 * 4096) (.allocate 1)).map fun out =>
        (Kernel.findProcess h.kernel.sched (0x1e02 * 4096),
          [h.kernel.alloc.reserved + h.kernel.alloc.selfUsedPage, 0x1e0f].map (FrameAlloc.getBit h.kernel.alloc.bitmap),
          (out.1.toOption, (out.2.buffers 0).frames 16),
          (hwWalk out.2.kernel.mem 0x1e02 (pagePath 0x7fffffffe)).any (List.all · fun e => e / 2 % 4 == 3))) =
      some (some 0, [1, 0], (some 0x180000000, [0x1e0f]), true) := by
    decide +kernel
  obtain ⟨h, first, run⟩ := Option.bind_eq_some_iff.mp run
  obtain ⟨⟨result, h1⟩, second, same⟩ := Option.map_eq_some_iff.mp run
  obtain ⟨found, same⟩ := Prod.mk.inj same
  obtain ⟨bits, same⟩ := Prod.mk.inj same
  obtain ⟨inUse, rest⟩ := List.cons.inj bits
  obtain ⟨free, _⟩ := List.cons.inj rest
  obtain ⟨out, stack⟩ := Prod.mk.inj same
  obtain ⟨addr, buffer⟩ := Prod.mk.inj out
  refine ⟨h, h1, _, Reach.boot.next (by exact trivial) first, Or.inr ⟨by decide, .normal, 0, (found_table found).2.1⟩,
    found, inUse, ?_, buffer, ?_, stack⟩
  · cases result with
    | error e => cases addr
    | ok value =>
      cases Option.some.inj addr
      exact second
  · unfold FrameAlloc.Used
    rw [free]
    decide

end HeapKernel

end ProkaKernel
