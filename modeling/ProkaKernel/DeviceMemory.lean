import ProkaKernel.Isolation
import ProkaKernel.Overflow

namespace ProkaKernel

/-- How `identity_map` ends; `PageAlreadyMapped` is the one error that
`map_mmio` tells apart. -/
inductive MmioResult
  | mapped
  | pageAlreadyMapped
  | failed

/-- The mapper of the page-table crate with `identity_map` for frames of 2 MiB:
tables on the way grow as for `map_to`, and a free entry of level 2 gets the
frame and the passed flags. -/
structure DeviceMapper extends PageMapper where
  identityMap : Mem → FrameAlloc → (root frame flags : Nat) → MmioResult × Mem × FrameAlloc
  identityMap_ok : ∀ {m a root frame flags m' a'}, Owns m a {root} ∅ → frame < 2 ^ 26 → PageFlags.Ok flags →
    identityMap m a root frame flags = (.mapped, m', a') →
    ∃ middle p i t, TableGrowth root m a middle a' ∧ pagePath (frame * 512) = p ++ [i, 0] ∧
      tableWalk middle root p = some t ∧ middle.entry t i = 0 ∧
      m' = middle.setEntry t i (pte (frame * 512) (flags ||| PageFlags.hugePage))
  identityMap_err : ∀ {m a root frame flags result m' a'}, Owns m a {root} ∅ → frame < 2 ^ 26 → PageFlags.Ok flags →
    identityMap m a root frame flags = (result, m', a') → result ≠ .mapped → TableGrowth root m a m' a'

/-- A base address register (`pci_types::Bar`). -/
inductive Bar
  | memory32 (address size : UInt32)
  | memory64 (address size : UInt64)
  | ioPort (port : UInt32)

/-- The address and the size of a memory region. -/
def Bar.region : Bar → Option (Nat × Nat)
  | .memory32 address size => some (address.toNat, size.toNat)
  | .memory64 address size => some (address.toNat, size.toNat)
  | .ioPort _ => none

namespace Kernel

section Mmio
variable {ε : Type} (mapper : DeviceMapper)

def identityMap (root frame flags : Nat) : Prog Kernel ε MmioResult := fun k =>
  match mapper.identityMap k.mem k.alloc root frame flags with
  | (result, m, a) => some (.ok result, { k with mem := m, alloc := a })

/-- The mapping loop of `map_mmio`. It panics at the first address that is not
canonical, so the sum never overflows. -/
def mapFrames (root addr : Nat) : Nat → Nat → Prog Kernel ε Unit
  | 0, _ => pure ()
  | left + 1, i => do
    let page ← pageAt (addr + i * 0x200000)
    match ← identityMap mapper root (page / 512) mmioFlags with
    | .failed => Prog.abort
    | _ => mapFrames root addr left (i + 1)

/-- `map_mmio` with the first register of a device. -/
def mapMmio (root : Nat) (bar : Option Bar) : Prog Kernel ε Unit :=
  match bar.bind Bar.region with
  | none => pure ()
  | some (addr, size) => do
    let length ← Prog.unwrap (alignUp size 0x200000)
    mapFrames mapper root addr (length / 0x200000) 0

/-- The loop of `driver_type_reg` over the endpoints that the driver is for. -/
def mapDevices (root : Nat) : List (Option Bar) → Prog Kernel ε Unit
  | [] => pure ()
  | bar :: rest => do
    mapMmio mapper root bar
    mapDevices root rest

/-- `coredrv` with the call that registers a driver. -/
def coredrv (pml4 : Nat) (bars : List (Option Bar)) : Prog Kernel ε Unit := do
  let s ← Prog.read Kernel.sched
  match coredrvProcess s pml4 with
  | none => pure ()
  | some did => mapDevices mapper ((s.driverProcess did).tableAddr / 4096) bars

end Mmio

end Kernel

/-- What can happen to the kernel, with the calls of drivers. -/
inductive DeviceEvent
  | kernel (event : KernelEvent)
  | coredrv (pml4 : Nat) (bars : List (Option Bar))

def DeviceEvent.By (tables : Set Nat) : DeviceEvent → Prop
  | .kernel event => event.By tables
  | .coredrv pml4 _ => pml4 ∈ tables

namespace Kernel
open Prog

section Run
variable (mapper : DeviceMapper) (parse : List UInt8 → Option Image)

def deviceStep (k : Kernel) : DeviceEvent → Option Kernel
  | .kernel event => k.step mapper.toPageMapper parse event
  | .coredrv pml4 bars => ((coredrv mapper pml4 bars : Prog Kernel Error Unit) k).map Prod.snd

/-- All runs of the kernel with the calls of its drivers. -/
inductive DeviceReach (start : Kernel) : Kernel → Set Nat → Prop
  | boot : DeviceReach start start ∅
  | next {k k' tables event} : DeviceReach start k tables → event.By tables →
      k.deviceStep mapper parse event = some k' → DeviceReach start k' (tables ∪ k'.tables)

end Run

/-- Edits of the memory below known roots, in a call that leaves the processes
alone. -/
structure Edited (R : Set Nat) (k k' : Kernel) : Prop where
  sched : k'.sched = k.sched
  edits : Edits True True (k.snapshot R []) (k'.snapshot R [])

/-- Device memory was mapped below known roots, and nothing was given back. -/
structure Mapped (R : Set Nat) (k k' : Kernel) : Prop where
  sched : k'.sched = k.sched
  edits : Edits False True (k.snapshot R []) (k'.snapshot R [])

section
variable {ε : Type} {E : ε → Kernel → Prop} {R : Set Nat} {k k' : Kernel} {root frame : Nat} {mapper : DeviceMapper}

theorem Edited.valid (edited : Edited R k k') (valid : k.Valid R) : k'.Valid R := by
  have owned := (edited.edits.keeps (P := fun _ => True) (fun _ _ => id) valid.stage.owns trivial).1
  have reserved : k'.alloc.reserved = k.alloc.reserved := edited.edits.reserved valid.stage.owns
  have slots := valid.slots.mono (valid.spacesFor_subset (fun _ => id) edited.edits)
  exact ⟨⟨owned, List.nodup_nil, rfl, reserved ▸ valid.stage.reserved⟩, edited.sched ▸ slots⟩

theorem Mapped.edited (mapped : Mapped R k k') : Edited R k k' :=
  ⟨mapped.sched, mapped.edits.mono False.elim id⟩

/-- The kernel's own memory stays as it is. -/
theorem Mapped.kept (mapped : Mapped R k k') (valid : k.Valid R) {x : Nat} (own : x / 4096 < k.alloc.reserved) :
    k'.mem x = k.mem x := by
  refine Mem.eq_of_entries (fun j => ?_) rfl
  exact (mapped.edits.protected_entry valid.stage.owns (Or.inl own)).resolve_right fun cleared => cleared.1

theorem Mapped.identityMap {result : MmioResult} {m : Mem} {a : FrameAlloc} (mapped : Mapped R k k') (valid : k.Valid R)
    (member : root ∈ R) (bound : frame < 2 ^ 26)
    (run : mapper.identityMap k'.mem k'.alloc root frame mmioFlags = (result, m, a)) :
    Mapped R k { k' with mem := m, alloc := a } := by
  refine ⟨mapped.sched, mapped.edits.trans ?_⟩
  have owns := (mapped.edited.valid valid).stage.owns.single member
  cases result with
  | mapped =>
    obtain ⟨middle, p, i, t, growth, path, reached, free, rfl⟩ := mapper.identityMap_ok owns bound (by decide) run
    have low : LowPath (pagePath (frame * 512)) := pagePath_low (by omega)
    have length : 4 = (p ++ [i, 0]).length := congrArg List.length path
    rw [path, List.append_cons] at low
    rw [List.length_append, List.length_cons, List.length_singleton] at length
    have grown : Edit False True (k'.snapshot R []) ⟨middle, a, R, { f | f ∈ [] }⟩ := .grow member growth
    exact (Relation.ReflTransGen.single grown).tail (.device trivial member (lowPath_closed _ _ low)
      (by omega) reached free (by omega))
  | pageAlreadyMapped =>
    exact .single (.grow member (mapper.identityMap_err owns bound (by decide) run nofun))
  | failed =>
    exact .single (.grow member (mapper.identityMap_err owns bound (by decide) run nofun))

variable (mapper)

theorem wp_identityMap {flags : Nat} {Q : MmioResult → Kernel → Prop}
    (done : ∀ result m a, mapper.identityMap k.mem k.alloc root frame flags = (result, m, a) →
      Q result { k with mem := m, alloc := a }) : wp (identityMap mapper root frame flags) Q E k :=
  done _ _ _ rfl

theorem mapFrames_wp (addr left i : Nat) (before : Mapped R k k') (valid : k.Valid R) (member : root ∈ R) :
    wp (mapFrames mapper root addr left i) (fun _ => Mapped R k) E k' := by
  induction left generalizing k' i with
  | zero => exact wp_pure before
  | succ left ih =>
    refine wp_bind (wp_pageAt fun bound => wp_bind (wp_identityMap mapper fun result m a run => ?_))
    have next := before.identityMap valid member (by omega) run
    cases result with
    | failed => exact wp_abort
    | mapped => exact ih (i + 1) next
    | pageAlreadyMapped => exact ih (i + 1) next

theorem mapMmio_wp (bar : Option Bar) (before : Mapped R k k') (valid : k.Valid R) (member : root ∈ R) :
    wp (mapMmio mapper root bar) (fun _ => Mapped R k) E k' := by
  unfold mapMmio
  split
  · exact wp_pure before
  · exact wp_bind (wp_unwrap fun length _ => mapFrames_wp mapper _ _ 0 before valid member)

theorem mapDevices_wp (bars : List (Option Bar)) (before : Mapped R k k') (valid : k.Valid R) (member : root ∈ R) :
    wp (mapDevices mapper root bars) (fun _ => Mapped R k) E k' := by
  induction bars generalizing k' with
  | nil => exact wp_pure before
  | cons bar rest ih =>
    refine wp_bind ((mapMmio_wp mapper bar before valid member).mono ?_ fun _ _ => id)
    exact fun _ k1 next => ih next

/-- The lookup finds a slot with that table. -/
theorem coredrvProcess_table {s : Sched} {pml4 did : Nat} (found : coredrvProcess s pml4 = some did) :
    (s.driverProcess did).tableAddr = pml4 := by
  obtain ⟨i, first, rfl⟩ := Option.map_eq_some_iff.mp found
  obtain ⟨bound, same, _⟩ := firstSlot_some first
  rw [Nat.mod_eq_of_lt (Nat.lt_of_lt_of_le bound (by decide))]
  exact eq_of_beq same

theorem coredrv_wp (bars : List (Option Bar)) (valid : k.Valid R) (member : root ∈ R) :
    wp (coredrv mapper (root * 4096) bars) (fun _ => Mapped R k) E k := by
  refine wp_bind (wp_read ?_)
  split
  · exact wp_pure ⟨rfl, .refl⟩
  · rename_i did found
    rw [coredrvProcess_table found, Nat.mul_div_cancel root (by decide)]
    exact mapDevices_wp mapper bars ⟨rfl, .refl⟩ valid member

/-- Every run with devices leads to a valid state, by edits of the memory. -/
theorem DeviceReach.edits {parse : List UInt8 → Option Image} {map : MemoryMap} {start : Kernel} {tables : Set Nat}
    (boot : start.Boot map) (reach : DeviceReach mapper parse start k tables) :
    ∃ R, k.Valid R ∧ Edits True True (start.snapshot ∅ []) (k.snapshot R []) ∧ ∀ t ∈ tables, ∃ r ∈ R, t = r * 4096 := by
  induction reach with
  | boot => exact ⟨∅, boot.valid, .refl, fun _ none => nomatch none⟩
  | @next k k' tables event _ caller run ih =>
    obtain ⟨R, valid, edits, known⟩ := ih
    have step : ∃ R', R ⊆ R' ∧ k'.Valid R' ∧ Edits True True (k.snapshot R []) (k'.snapshot R' []) := by
      cases event with
      | kernel event =>
        obtain ⟨R', goes⟩ := valid.step mapper.toPageMapper parse known caller run
        exact ⟨R', goes.grows, goes.valid, goes.edits.mono id False.elim⟩
      | coredrv pml4 bars =>
        obtain ⟨root, member, rfl⟩ := known pml4 caller
        have edited := (of_run (coredrv_wp mapper bars valid member) run).edited
        exact ⟨R, fun _ => id, edited.valid valid, edited.edits⟩
    obtain ⟨R', grows, valid', edits'⟩ := step
    exact ⟨R', valid', edits.trans edits', valid'.known_tables grows known⟩

end

end Kernel

namespace FourLevel

/-- `identity_map` for a frame of 2 MiB. -/
def identityMap (m : Mem) (a : FrameAlloc) (root frame flags : Nat) : MmioResult × Mem × FrameAlloc :=
  match descend (flags % 8) [Fin.ofNat 512 (frame / 512 ^ 2), Fin.ofNat 512 (frame / 512)] m a root with
  | (none, m', a') => (.failed, m', a')
  | (some t, m', a') =>
    if m'.entry t (Fin.ofNat 512 frame) = 0 then
      (.mapped, m'.setEntry t (Fin.ofNat 512 frame) (pte (frame * 512) (flags ||| PageFlags.hugePage)), a')
    else (.pageAlreadyMapped, m', a')

theorem hugePath (frame : Nat) : pagePath (frame * 512) =
    [Fin.ofNat 512 (frame / 512 ^ 2), Fin.ofNat 512 (frame / 512)] ++ [Fin.ofNat 512 frame, 0] := by
  have third : frame * 512 / 512 = frame := Nat.mul_div_cancel frame (by decide)
  have second : frame * 512 / 512 ^ 2 = frame / 512 := by omega
  have first : frame * 512 / 512 ^ 3 = frame / 512 ^ 2 := by omega
  have last : Fin.ofNat 512 (frame * 512) = 0 := Fin.ext (Nat.mul_mod_left frame 512)
  unfold pagePath
  rw [first, second, third, last]
  rfl

/-- All that `identityMap` can do after the way down to the slot. -/
theorem identityMap_descend {m m' : Mem} {a a' : FrameAlloc} {root frame flags : Nat} {result : MmioResult}
    (run : identityMap m a root frame flags = (result, m', a')) :
    ∃ found middle, descend (flags % 8) [Fin.ofNat 512 (frame / 512 ^ 2), Fin.ofNat 512 (frame / 512)] m a root =
        (found, middle, a') ∧
      ((found = none ∧ result = .failed ∧ m' = middle) ∨
      (∃ t, found = some t ∧ result = .mapped ∧ middle.entry t (Fin.ofNat 512 frame) = 0 ∧
        m' = middle.setEntry t (Fin.ofNat 512 frame) (pte (frame * 512) (flags ||| PageFlags.hugePage))) ∨
      ∃ t, found = some t ∧ result = .pageAlreadyMapped ∧ middle.entry t (Fin.ofNat 512 frame) ≠ 0 ∧ m' = middle) := by
  unfold identityMap at run
  cases down : descend (flags % 8) [Fin.ofNat 512 (frame / 512 ^ 2), Fin.ofNat 512 (frame / 512)] m a root with
  | mk found both =>
    obtain ⟨middle, a1⟩ := both
    rw [down] at run
    cases found with
    | none =>
      cases run
      exact ⟨none, m', rfl, Or.inl ⟨rfl, rfl, rfl⟩⟩
    | some t =>
      dsimp only at run
      split at run
      · rename_i free
        cases run
        exact ⟨some t, middle, rfl, Or.inr (Or.inl ⟨t, rfl, rfl, free, rfl⟩)⟩
      · rename_i used
        cases run
        exact ⟨some t, m', rfl, Or.inr (Or.inr ⟨t, rfl, rfl, used, rfl⟩)⟩

/-- The ways in which `identityMap` ends. -/
theorem identityMap_cases {m m' : Mem} {a a' : FrameAlloc} {root frame flags : Nat} {result : MmioResult}
    (owns : Owns m a {root} ∅) (bound : frame < 2 ^ 26) (ok : PageFlags.Ok flags)
    (run : identityMap m a root frame flags = (result, m', a')) :
    (result = .mapped ∧ ∃ middle p i t, TableGrowth root m a middle a' ∧ pagePath (frame * 512) = p ++ [i, 0] ∧
      tableWalk middle root p = some t ∧ middle.entry t i = 0 ∧
      m' = middle.setEntry t i (pte (frame * 512) (flags ||| PageFlags.hugePage))) ∨
    (result ≠ .mapped ∧ TableGrowth root m a m' a') := by
  have inside : frame * 512 < 2 ^ 35 := by omega
  obtain ⟨found, middle, down, kind⟩ := identityMap_descend run
  obtain ⟨path, _, reached⟩ := descend_path (p := []) _ owns .refl inside (hugePath frame) (List.cons_ne_nil _ _)
    (parent_ok ok) (Nat.mod_lt flags (by decide)) rfl down
  have growth := path.growth inside
  rcases kind with ⟨_, rfl, rfl⟩ | ⟨t, rfl, rfl, free, rfl⟩ | ⟨_, _, rfl, _, rfl⟩
  · exact Or.inr ⟨nofun, growth⟩
  · exact Or.inl ⟨rfl, middle, _, _, t, growth, hugePath frame, reached t rfl, free, rfl⟩
  · exact Or.inr ⟨nofun, growth⟩

def deviceMapper : DeviceMapper where
  toPageMapper := mapper
  identityMap := identityMap
  identityMap_ok := by
    intro m a root frame flags m' a' owns bound ok run
    rcases identityMap_cases owns bound ok run with ⟨_, mapped⟩ | ⟨refused, _⟩
    · exact mapped
    · exact absurd rfl refused
  identityMap_err := by
    intro m a root frame flags result m' a' owns bound ok run refused
    rcases identityMap_cases owns bound ok run with ⟨mapped, _⟩ | ⟨_, growth⟩
    · exact absurd mapped refused
    · exact growth

end FourLevel

end ProkaKernel
