import ProkaKernel.ImageLayout

namespace ProkaKernel

namespace Kernel
open Prog

variable (mapper : PageMapper) (parse : List UInt8 → Option Image)

/-- A heap call of the process on page table `table`, with any outcome. -/
inductive HeapCall (table : Nat) (k : Kernel) : Kernel → Prop
  | allocate {size result k'} : allocate mapper table size k = some (result, k') → HeapCall table k k'
  | deallocate {addr result k'} : deallocate mapper table addr k = some (result, k') → HeapCall table k k'

/-- The slot of the process created last. -/
def newestSlot (k : Kernel) (typ : ProcType) : Nat := (k.sched.queue typ).getLast?.getD 0

theorem newestSlot_created {s : Sched} {k : Kernel} {typ : ProcType} {id frame : Nat}
    (created : Created s k.sched typ id frame) : k.newestSlot typ = id := by
  unfold newestSlot
  rw [created.queue, List.getLast?_concat, Option.getD_some]

/-- Every frame that was free before is free again. -/
def Conserved (k k' : Kernel) : Prop := ∀ f, ¬FrameAlloc.Used k.alloc.bitmap f → ¬FrameAlloc.Used k'.alloc.bitmap f

section
variable {R : Set Nat} {root : Nat} {k k' : Kernel}

theorem HeapCall.goes (call : HeapCall mapper (root * 4096) k k') (valid : k.Valid R) (member : root ∈ R) :
    Goes R R k k' := by
  cases call with
  | allocate run => exact of_run (allocate_wp mapper _ valid member) (Option.map_eq_some_iff.mpr ⟨_, run, rfl⟩)
  | deallocate run => exact of_run (deallocate_wp mapper _ valid member) (Option.map_eq_some_iff.mpr ⟨_, run, rfl⟩)

theorem heapCalls_valid (calls : Relation.ReflTransGen (HeapCall mapper (root * 4096)) k k') (valid : k.Valid R)
    (member : root ∈ R) : k'.Valid R := by
  induction calls with
  | refl => exact valid
  | tail _ call ih => exact (call.goes mapper ih member).valid

/-- The frame of the level-4 table is in use after the removal. -/
theorem Valid.root_lost {typ : ProcType} {index : Nat} (valid : k.Valid R) (member : root ∈ R)
    (run : remove mapper typ index k = some (.ok (), k')) : FrameAlloc.Used k'.alloc.bitmap root :=
  (((remove_wp mapper typ index valid).ok run).valid.stage.owns.taken_root member).1

theorem Valid.never_conserved {k1 k2 k3 : Kernel} {data : List UInt8} {priority index : Nat} {image : Image}
    {typ : ProcType} (valid : k.Valid R) (parsed : parse data = some image)
    (created : create mapper parse data priority k = some (.ok (), k1))
    (calls : Relation.ReflTransGen (HeapCall mapper (k1.newestTable image.procType * 4096)) k1 k2)
    (removed : remove mapper typ index k2 = some (.ok (), k3)) : ¬Conserved k k3 := by
  obtain ⟨_, root, id, infos, stackBase, same, spawned⟩ := (create_wp mapper parse data priority valid.stage).ok created
  cases Option.some.inj (parsed.symm.trans same)
  rw [spawned.newest] at calls
  have member := Set.mem_insert root R
  have valid2 := heapCalls_valid mapper calls (spawned.valid valid) member
  intro conserved
  exact conserved root (spawned.unused root (List.mem_cons_self ..)) (valid2.root_lost mapper member removed)

end

/-- No process gives back all its frames: whatever it does with its heap, the
frame of its level-4 table is still in use after the removal. -/
theorem frames_never_conserved {map : MemoryMap} {start k k1 k2 k3 : Kernel} {tables : Set Nat} {data : List UInt8}
    {priority : Nat} {image : Image} (boot : start.Boot map) (reach : Reach mapper parse start k tables)
    (parsed : parse data = some image) (created : create mapper parse data priority k = some (.ok (), k1))
    (calls : Relation.ReflTransGen (HeapCall mapper (k1.newestTable image.procType * 4096)) k1 k2)
    (removed : remove mapper image.procType (k1.newestSlot image.procType) k2 = some (.ok (), k3)) :
    ¬Conserved k k3 := by
  obtain ⟨R, valid, _⟩ := reach.valid mapper parse boot
  exact valid.never_conserved mapper parse parsed created calls removed

/-- A process that takes two heap pages and is removed on the small machine. -/
theorem frames_lost_with_heap :
    ∃ k1 k2 k3, create FourLevel.mapper flatParse [0x90] 0 smallKernel = some (.ok (), k1) ∧
      HeapCall FourLevel.mapper (k1.newestTable .normal * 4096) k1 k2 ∧
      remove FourLevel.mapper .normal (k1.newestSlot .normal) k2 = some (.ok (), k3) ∧ ¬Conserved smallKernel k3 := by
  have run : ((create FourLevel.mapper flatParse [0x90] 0 smallKernel).bind fun out1 =>
      (allocate FourLevel.mapper (out1.2.newestTable .normal * 4096) 5000 out1.2).map fun out2 =>
        (out1.1.isOk, (ProkaKernel.remove out2.2.sched .normal (out1.2.newestSlot .normal)).isOk)) = some (true, true) := by
    decide +kernel
  obtain ⟨⟨result1, k1⟩, first, run⟩ := Option.bind_eq_some_iff.mp run
  obtain ⟨⟨result2, k2⟩, second, same⟩ := Option.map_eq_some_iff.mp run
  obtain ⟨ok, removable⟩ := Prod.mk.inj same
  obtain ⟨k3, third, _⟩ := remove_ok FourLevel.mapper removable
  cases result1 with
  | error e => cases ok
  | ok done =>
    have call : HeapCall FourLevel.mapper (k1.newestTable .normal * 4096) k1 k2 := .allocate second
    exact ⟨k1, k2, k3, first, call, third, frames_never_conserved FourLevel.mapper flatParse smallKernel_boot .boot rfl
      first (.single call) third⟩

/-- A process of one byte that is removed at once has lost frame 7682. -/
theorem frames_lost_one_byte : ∃ k1 k2, create FourLevel.mapper flatParse [0x90] 0 smallKernel = some (.ok (), k1) ∧
    remove FourLevel.mapper .normal 0 k1 = some (.ok (), k2) ∧ ¬Conserved smallKernel k2 := by
  have run : ((create FourLevel.mapper flatParse [0x90] 0 smallKernel).map fun out =>
      (out.1.isOk, (ProkaKernel.remove out.2.sched .normal 0).isOk)) = some (true, true) := by
    decide +kernel
  obtain ⟨⟨result, k1⟩, first, same⟩ := Option.map_eq_some_iff.mp run
  obtain ⟨ok, removable⟩ := Prod.mk.inj same
  obtain ⟨k2, second, _⟩ := remove_ok FourLevel.mapper removable
  cases result with
  | error e => cases ok
  | ok done =>
    exact ⟨k1, k2, first, second,
      smallKernel_boot.valid.never_conserved FourLevel.mapper flatParse rfl first .refl second⟩

end Kernel

end ProkaKernel
