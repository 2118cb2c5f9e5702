import ProkaKernel.Bystanders
import ProkaKernel.DriverMemory

namespace ProkaKernel
open Paging

theorem lowPath_nil : LowPath [] := by
  refine ⟨Nat.zero_le 4, fun i first => ?_⟩
  cases first

section
variable {m m' : Mem} {a a' : FrameAlloc} {R pend : Set Nat} {root q x : Nat}

theorem TableTrim.bystander_byte (trim : TableTrim root m a m' a') (owns : Owns m a R pend) (member : root ∈ R)
    (taken : a.Taken q) (unplaced : ¬Forest.Placed pteFrame LowPath m.entry R q) (here : x / 4096 = q) : m' x = m x := by
  induction trim with
  | refl => rfl
  | @prune m1 a1 p i t f before short reached entry empty ih =>
    obtain ⟨taken1, unplaced1⟩ := before.bystander owns member taken unplaced
    have owns1 := before.owns owns member
    have apart : q ≠ t := by
      rintro rfl
      by_cases low : LowPath (p ++ [i])
      · exact unplaced1 ⟨root, p, member, lowPath_closed p [i] low, reached⟩
      · rcases (owns1.upper_place member short low reached entry).2 with below | ⟨rfl, _⟩
        · have above := taken1.2
          omega
        · exact unplaced1 ⟨q, [], member, lowPath_nil, rfl⟩
    rw [Mem.setEntry_of_ne _ _ _ (here ▸ apart), ih]

end

section
variable {back device : Prop} {c c' : Snapshot} {q x : Nat}

theorem Edit.bystander_byte (edit : Edit back device c c') (owned : c.Owned) (held : Bystander c q) (here : x / 4096 = q) :
    c'.mem x = c.mem x := by
  subst here
  obtain ⟨taken, unplaced, unlisted⟩ := held
  have apart {root t : Nat} {p : List (Fin 512)} {i : Fin 512} (member : root ∈ c.roots) (low : LowPath (p ++ [i]))
      (reached : tableWalk c.mem root p = some t) : x / 4096 ≠ t := by
    rintro rfl
    exact unplaced ⟨root, p, member, lowPath_closed p [i] low, reached⟩
  cases edit with
  | take | give | drop => rfl
  | fill others => exact others x unlisted
  | plant pending _ _ =>
    have other : x / 4096 ≠ _ := fun same => unlisted (same ▸ pending)
    exact (Mem.setEntry_of_ne _ _ _ other).trans (Mem.zeroFrame_of_ne _ other)
  | grow member growth =>
    refine (growth.grown owned member).bytes _ taken.1 (fun p low _ reached => ?_) x rfl
    exact unplaced ⟨_, p, member, low, reached⟩
  | map member bound _ _ _ last _ _ => exact Mem.setEntry_of_ne _ _ _ (apart member (last.low bound) last.reached)
  | unmap _ member bound last _ _ => exact Mem.setEntry_of_ne _ _ _ (apart member (last.low bound) last.reached)
  | trim _ member trim => exact trim.bystander_byte owned member taken unplaced rfl
  | device _ member low _ reached _ _ => exact Mem.setEntry_of_ne _ _ _ (apart member low reached)

/-- No kernel call writes into a frame that it has no part in. -/
theorem Edits.bystander_byte (edits : Edits back device c c') (owned : c.Owned) (held : Bystander c q)
    (here : x / 4096 = q) : c'.mem x = c.mem x := by
  refine (edits.keeps (P := fun d => Bystander d q ∧ d.mem x = c.mem x) ?_ owned ⟨held, rfl⟩).2.2
  rintro d d' edit dOwned ⟨before, same⟩
  exact ⟨edit.bystander dOwned before, (edit.bystander_byte dOwned before here).trans same⟩

end

/-- The processor reads only entries of the tables that it passes. -/
theorem hwWalk_congr {m m' : Mem} {t : Nat} {path : List (Fin 512)}
    (same : ∀ q j rest u, path = q ++ j :: rest → tableWalk m t q = some u → m'.entry u j = m.entry u j) :
    hwWalk m' t path = hwWalk m t path := by
  induction path generalizing t with
  | nil => rfl
  | cons i rest ih =>
    unfold hwWalk
    rw [same [] i rest t rfl rfl]
    split
    · rfl
    · rename_i present
      split
      · rfl
      · rename_i table
        by_cases last : rest = []
        · subst last
          rfl
        · have small : m.entry t i / 128 % 2 = 0 := by
            have notHuge := not_and'.mp table last
            omega
          rw [ih fun q j tail u split reached => same (i :: q) j tail u (by rw [split]; rfl) ?_]
          rw [tableWalk, Forest.walk, pteFrame_table (by omega) small]
          exact reached

/-- The level-4 table that an event works on: the caller's, or that of the
process to remove. -/
def KernelEvent.table (s : Sched) : KernelEvent → Option Nat
  | .remove typ index => if (s.slot typ index).present then some (s.slot typ index).tableAddr else none
  | .allocate userTable _ => some userTable
  | .deallocate userTable _ => some userTable
  | .pagefault pml4 _ => some pml4
  | _ => none

namespace Kernel
open Prog

section
variable (mapper : PageMapper) (parse : List UInt8 → Option Image) {k k' : Kernel} {R : Set Nat}

/-- What an event does to memory when the address spaces are only known in
part: it keeps to those that it works on and to new ones. -/
theorem step_edits {event : KernelEvent} (stage : Stage k.sched R [] k)
    (mine : ∀ t ∈ event.table k.sched, ∃ r ∈ R, t = r * 4096) (run : k.step mapper parse event = some k') :
    ∃ R', Edits True False (k.snapshot R []) (k'.snapshot R' []) := by
  have start : Trail True (k.snapshot R []) k.sched R [] k := stage.trail
  have refl : ∃ R', Edits True False (k.snapshot R []) (k.snapshot R' []) := ⟨R, .refl⟩
  cases event with
  | create data priority =>
    refine of_run (P := fun k1 => ∃ R', Edits True False (k.snapshot R []) (k1.snapshot R' []))
      ((create_wp mapper parse data priority stage).mono ?_ ?_) run
    · rintro _ k1 ⟨_, root, _, _, _, _, spawned⟩
      exact ⟨_, spawned.edits.mono False.elim False.elim⟩
    · rintro _ k1 ⟨R', _, trail⟩
      exact ⟨R', trail.edits.mono False.elim False.elim⟩
  | remove typ index =>
    refine of_run (P := fun k1 => ∃ R', Edits True False (k.snapshot R []) (k1.snapshot R' []))
      (wp_bind (wp_read ?_)) run
    split
    · exact wp_fail refl
    · rename_i s' removal
      obtain ⟨r, member, table⟩ := mine _ (if_pos (remove_removed removal).present)
      rw [table, Nat.mul_div_cancel r (by decide)]
      exact wp_bind (wp_cleanUp mapper fun m a cleaned => wp_write ⟨R, (start.cleanUp member cleaned).edits⟩)
  | allocate userTable size =>
    obtain ⟨root, member, rfl⟩ := mine userTable rfl
    refine of_run (P := fun k1 => ∃ R', Edits True False (k.snapshot R []) (k1.snapshot R' [])) ?_ run
    unfold allocate
    rw [Nat.mul_div_cancel root (by decide)]
    split
    · exact wp_fail refl
    · refine wp_bind (wp_read ?_)
      split
      · exact wp_fail refl
      · refine wp_bind ((growHeap_wp mapper _ _ 0 [] start member fun _ none => absurd none List.not_mem_nil).mono ?_
          fun _ _ trail => ⟨R, trail.edits⟩)
        exact fun _ k1 trail => wp_bind (wp_write (wp_pure ⟨R, trail.edits⟩))
  | deallocate userTable addr =>
    obtain ⟨root, member, rfl⟩ := mine userTable rfl
    refine of_run (P := fun k1 => ∃ R', Edits True False (k.snapshot R []) (k1.snapshot R' [])) ?_ run
    unfold deallocate
    rw [Nat.mul_div_cancel root (by decide)]
    refine wp_bind (wp_read ?_)
    split
    · exact wp_fail refl
    · dsimp only
      split
      · exact wp_fail refl
      · refine wp_bind ((shrinkHeap_wp mapper _ _ 0 start member).mono ?_ fun _ _ trail => ⟨R, trail.edits⟩)
        exact fun _ k1 trail => wp_bind (wp_write (wp_pure ⟨R, trail.edits⟩))
  | pagefault pml4 addr =>
    obtain ⟨root, member, rfl⟩ := mine pml4 rfl
    refine of_run (P := fun k1 => ∃ R', Edits True False (k.snapshot R []) (k1.snapshot R' []))
      ((pagefault_trail mapper addr stage member).mono ?_ fun _ _ => id) run
    exact fun _ k1 trail => ⟨R, trail.edits.mono False.elim False.elim⟩
  | tick regs cr3 =>
    obtain ⟨s', _, rfl⟩ := Option.map_eq_some_iff.mp run
    exact refl

end

end Kernel

/-- The processor lets a process store through these entries. A driver needs
the writable bit at every level, as write protection holds for supervisor code
as well; a normal process, in ring 3, also needs the bit for user code. -/
def ProcType.mayStore (typ : ProcType) (entries : List Nat) : Bool :=
  entries.all fun e => e / 2 % 2 == 1 && (typ == .driver || e / 4 % 2 == 1)

theorem ProcType.mayStore_writable {typ : ProcType} {entries : List Nat} (may : typ.mayStore entries = true) :
    Writable entries := by
  intro e member
  have both := List.all_eq_true.mp may e member
  exact eq_of_beq (Bool.and_eq_true_iff.mp both).1

theorem ProcType.mayStore_user {entries : List Nat} (may : ProcType.normal.mayStore entries = true) :
    UserAccessible entries := by
  intro e member
  have both := List.all_eq_true.mp may e member
  exact eq_of_beq (Bool.and_eq_true_iff.mp both).2

namespace Kernel

/-- A process stores a byte. If the tables do not allow it, the processor
raises a page fault instead. -/
def store (k : Kernel) (typ : ProcType) (root addr : Nat) (byte : UInt8) : Kernel :=
  match hwWalk k.mem root (pagePath (addr / 4096)) with
  | some entries =>
    if typ.mayStore entries then { k with mem := Function.update k.mem (physAddr 4 entries addr) byte } else k
  | none => k

/-- All address spaces of the processes in the process tables. -/
def spaces (k : Kernel) : Set (ProcType × Nat) := { space | ∃ i, k.Space space.1 i space.2 }

end Kernel

/-- What can happen on the machine: the events of the kernel, and the stores of
the processes. -/
inductive MachineEvent
  | kernel (event : KernelEvent)
  | store (typ : ProcType) (root addr : Nat) (byte : UInt8)

namespace MachineEvent

def table (s : Sched) : MachineEvent → Option Nat
  | .kernel event => event.table s
  | .store _ root _ _ => some (root * 4096)

/-- The event comes from one of these processes, if it comes from a process. -/
def By (spaces : Set (ProcType × Nat)) : MachineEvent → Prop
  | .kernel event => event.By { t | ∃ space ∈ spaces, t = space.2 * 4096 }
  | .store typ root _ _ => (typ, root) ∈ spaces

end MachineEvent

/-- The pages that both upper halves have writable lie below the pages that
are handed out. -/
theorem Global.below {i j : Fin 512} {entries : List Nat} {addr : Nat} (shared : Global i j entries) (first : Nat) :
    physAddr 4 (first :: entries) addr < 0x1e00000 := by
  have length : entries.length = 2 := by rcases shared with ⟨_, _, rfl⟩ | ⟨_, _, rfl⟩ | ⟨_, _, rfl⟩ <;> rfl
  rw [physAddr_huge (congrArg (· + 2) length)]
  refine Nat.lt_of_le_of_lt (Nat.add_le_add_right (m := 0x1c00000) ?_ _) (by omega)
  rcases shared with ⟨_, _, rfl⟩ | ⟨_, _, rfl⟩ | ⟨_, _, rfl⟩
  · exact (by decide : pte 0x1800 gsFlags / 2 ^ 21 % 2 ^ 31 * 2 ^ 21 ≤ 0x1c00000)
  · exact (by decide : pte 0x1a00 gsFlags / 2 ^ 21 % 2 ^ 31 * 2 ^ 21 ≤ 0x1c00000)
  · exact (by decide : pte 0x1c00 grwFlags / 2 ^ 21 % 2 ^ 31 * 2 ^ 21 ≤ 0x1c00000)

namespace Kernel

section
variable (mapper : PageMapper) (parse : List UInt8 → Option Image)

def machineStep (k : Kernel) : MachineEvent → Option Kernel
  | .kernel event => k.step mapper parse event
  | .store typ root addr byte => some (k.store typ root addr byte)

/-- The runs of allowed events, with the address spaces of all processes that
were there before or are created. Any of these processes may be the one that
runs, also after it was removed. -/
inductive MachineRun (allowed : Kernel → MachineEvent → Prop) (k : Kernel) (spaces : Set (ProcType × Nat)) :
    Kernel → Set (ProcType × Nat) → Prop
  | refl : MachineRun allowed k spaces k spaces
  | next {k1 k2 spaces1 event} : MachineRun allowed k spaces k1 spaces1 → event.By spaces1 → allowed k1 event →
      k1.machineStep mapper parse event = some k2 → MachineRun allowed k spaces k2 (spaces1 ∪ k2.spaces)

end

/-- What holds between any two events of the machine. -/
structure Sealed (k : Kernel) (R : Set Nat) (spaces : Set (ProcType × Nat)) : Prop where
  valid : k.Valid R
  paged : Paged k.mem
  single : LowEntries (fun _ e => e = 0 ∨ pteFrame e ≠ none) k.mem R
  reserved : k.alloc.reserved = usedPage
  known : ∀ space ∈ spaces, space.2 ∈ spacesFor k.mem R space.1

section
variable {k k' : Kernel} {R R' : Set Nat} {spaces : Set (ProcType × Nat)} {typ : ProcType} {root addr : Nat}
  {entries : List Nat}

theorem Booted.sealed {map : MemoryMap} (booted : Booted map k) : k.Sealed ∅ ∅ where
  valid := booted.boot.valid
  paged := booted.paged
  single _ none := nomatch none
  reserved := booted.boot.reserved
  known _ none := nomatch none

theorem Valid.spaces_known (valid : k.Valid R) : ∀ space ∈ k.spaces, space.2 ∈ spacesFor k.mem R space.1 := by
  rintro ⟨typ, root⟩ ⟨i, space⟩
  exact space.root valid.slots

theorem Sealed.goes (before : k.Sealed R spaces) (goes : Goes R R' k k') : k'.Sealed R' (spaces ∪ k'.spaces) := by
  have owned := before.valid.stage.owns
  refine ⟨goes.valid, fun t j upper => ?_, goes.edits.lowEntries entryRule_single owned before.single,
    (goes.edits.reserved owned).trans before.reserved, ?_⟩
  · have below : t < k.alloc.reserved := by
      rw [before.reserved]
      exact Nat.lt_trans upper.range.2.1 (by decide)
    rcases goes.edits.protected_entry owned (Or.inl below) with same | ⟨_, zero⟩
    · rw [show k'.mem.entry t j = k.mem.entry t j from same]
      exact before.paged t j upper
    · exact Or.inr zero
  · rintro space (old | new)
    · exact before.valid.spacesFor_subset goes.grows goes.edits _ (before.known space old)
    · exact goes.valid.spaces_known space new

/-- The frame behind an address of the lower half is mapped there. -/
theorem Sealed.low_frame (before : k.Sealed R spaces) (member : root ∈ R)
    (low : (Fin.ofNat 512 (addr / 4096 / 512 ^ 3)).val < 256)
    (run : hwWalk k.mem root (pagePath (addr / 4096)) = some entries) :
    LowPath (pagePath (addr / 4096)) ∧
      tableWalk k.mem root (pagePath (addr / 4096)) = some (physAddr 4 entries addr / 4096) := by
  obtain ⟨q, i, rest, u, path, place, reached, leaf, length, present, kind⟩ := hwWalk_low low run
  have table : pteFrame (k.mem.entry u i) ≠ none := by
    refine (before.single root member q i u place reached).resolve_left fun zero => ?_
    rw [zero] at present
    cases present
  have small : k.mem.entry u i / 128 % 2 = 0 := by
    by_contra huge
    exact table (if_neg fun both => huge both.2)
  obtain rfl : rest = [] := kind.resolve_right (by omega)
  have depth : entries.length = 4 := by
    have whole := congrArg List.length path
    rw [List.length_append] at whole
    exact length.trans whole.symm
  have frame : physAddr 4 entries addr / 4096 = k.mem.entry u i / 4096 % 2 ^ 40 := by
    rw [physAddr_page depth, leaf]
    omega
  rw [path, frame]
  refine ⟨place, ?_⟩
  rw [tableWalk, Forest.walk_through reached, pteFrame_table present small]
  rfl

/-- A store goes to a page of the lower half, or to the interrupt stack and
the global data. -/
theorem Sealed.store_target (before : k.Sealed R spaces) (space : root ∈ spacesFor k.mem R typ)
    (run : hwWalk k.mem root (pagePath (addr / 4096)) = some entries) (may : typ.mayStore entries = true) :
    (LowPath (pagePath (addr / 4096)) ∧
      tableWalk k.mem root (pagePath (addr / 4096)) = some (physAddr 4 entries addr / 4096)) ∨
    (0x1800 ≤ physAddr 4 entries addr / 4096 ∧ physAddr 4 entries addr / 4096 < usedPage) := by
  obtain ⟨member, half⟩ := space
  by_cases low : (Fin.ofNat 512 (addr / 4096 / 512 ^ 3)).val < 256
  · exact Or.inl (before.low_frame member low run)
  · obtain ⟨present, kind⟩ := hwWalk_cons run
    rcases half _ (Nat.le_of_not_lt low) with zero | ⟨_, linked⟩
    · rw [zero] at present
      cases present
    · rw [linked] at kind
      rcases kind with ⟨huge, _⟩ | ⟨_, below, inner, rfl⟩
      · cases typ <;> cases huge
      · cases typ with
        | normal =>
          have user := ProcType.mayStore_user may _ (List.mem_cons_self ..)
          cases user
        | driver =>
          rcases before.paged.hproc_walk inner with ⟨_, _, rfl⟩ | shared
          · have last := ProcType.mayStore_writable may _ (List.mem_cons_of_mem _ (List.mem_cons_self ..))
            cases last
          · exact Or.inr ⟨(Nat.le_div_iff_mul_le (by decide)).mpr (shared.above _), Nat.div_lt_of_lt_mul (shared.below _)⟩

/-- A store changes nothing, or bytes of one such frame. -/
theorem Sealed.store_cases (before : k.Sealed R spaces) (space : root ∈ spacesFor k.mem R typ) (byte : UInt8) :
    k.store typ root addr byte = k ∨ ∃ g m, k.store typ root addr byte = { k with mem := m } ∧
      (∀ x, x / 4096 ≠ g → m x = k.mem x) ∧
      ((LowPath (pagePath (addr / 4096)) ∧ tableWalk k.mem root (pagePath (addr / 4096)) = some g) ∨
        (0x1800 ≤ g ∧ g < usedPage)) := by
  unfold store
  split
  · rename_i entries walked
    split
    · rename_i may
      refine Or.inr ⟨_, _, rfl, fun x outside => Function.update_of_ne (fun same => ?_) ..,
        before.store_target space walked may⟩
      exact outside (same ▸ rfl)
    · exact Or.inl rfl
  · exact Or.inl rfl

section
variable {m : Mem} {g : Nat}

theorem entry_outside (others : ∀ x, x / 4096 ≠ g → m x = k.mem x) {t : Nat} (apart : t ≠ g) (j : Fin 512) :
    m.entry t j = k.mem.entry t j :=
  Mem.entry_congr (fun x here => others x (here ▸ apart)) j

theorem walk_outside (others : ∀ x, x / 4096 ≠ g → m x = k.mem x)
    (noTable : ∀ r ∈ R, ∀ p, LowPath p → p.length ≤ 3 → tableWalk k.mem r p ≠ some g) {r : Nat} {p : List (Fin 512)}
    (member : r ∈ R) (low : LowPath p) : tableWalk m r p = tableWalk k.mem r p := by
  refine Forest.walk_congr fun q j rest t split here => ?_
  have length := low.1
  rw [split, List.length_append, List.length_cons] at length
  rw [entry_outside others]
  rintro rfl
  exact noTable r member q (lowPath_closed q (j :: rest) (split ▸ low)) (by omega) here

theorem lowEntries_outside {Q : Nat → Nat → Prop} (entries : LowEntries Q k.mem R)
    (others : ∀ x, x / 4096 ≠ g → m x = k.mem x)
    (noTable : ∀ r ∈ R, ∀ p, LowPath p → p.length ≤ 3 → tableWalk k.mem r p ≠ some g) : LowEntries Q m R := by
  intro r member p i t low reached
  have lowP := lowPath_closed p [i] low
  have length := low.1
  rw [List.length_append, List.length_singleton] at length
  have old := (walk_outside others noTable member lowP).symm.trans reached
  rw [entry_outside others]
  · exact entries r member p i t low old
  · rintro rfl
    exact noTable r member p lowP (by omega) old

/-- Memory may change freely in a frame that is no table. -/
theorem Sealed.write (before : k.Sealed R spaces) (others : ∀ x, x / 4096 ≠ g → m x = k.mem x)
    (noTable : ∀ r ∈ R, ∀ p, LowPath p → p.length ≤ 3 → tableWalk k.mem r p ≠ some g) (noUpper : ¬UpperTable g) :
    Sealed { k with mem := m } R spaces := by
  have rooted (r : Nat) (member : r ∈ R) : r ≠ g := fun same =>
    noTable r member [] lowPath_nil (Nat.zero_le 3) (congrArg some same)
  have paged : Paged m := fun t j upper => by
    rw [entry_outside others fun same => noUpper (same ▸ upper)]
    exact before.paged t j upper
  have half (typ : ProcType) (r : Nat) (space : r ∈ spacesFor k.mem R typ) : r ∈ spacesFor m R typ := by
    refine ⟨space.1, fun j high => ?_⟩
    rw [entry_outside others (rooted r space.1)]
    exact space.2 j high
  have owns := before.valid.stage.owns
  have upper : Upper m k.alloc.reserved R := by
    refine ⟨fun s shared p f short reached => ?_, fun r member i high f entry => ?_⟩
    · rw [before.reserved]
      exact Nat.lt_trans (paged.below shared short reached) (by decide)
    · rw [entry_outside others (rooted r member)] at entry
      exact owns.upper.linked r member i high f entry
  exact ⟨⟨⟨⟨owns.spaces.unmoved fun r p member low => walk_outside others noTable member low, owns.guarded, upper⟩,
    before.valid.stage.nodup, rfl, before.valid.stage.reserved⟩, before.valid.slots.mono half⟩, paged,
    lowEntries_outside before.single others noTable, before.reserved,
    fun space there => half _ _ (before.known space there)⟩

end

/-- Every frame of the lower half of an address space has the bytes it had. -/
def Keeps (k k' : Kernel) (root : Nat) : Prop :=
  ∀ p f, LowPath p → tableWalk k.mem root p = some f → ∀ x, x / 4096 = f → k'.mem x = k.mem x

theorem Keeps.walk (keeps : Keeps k k' root) {p : List (Fin 512)} (low : LowPath p) :
    tableWalk k'.mem root p = tableWalk k.mem root p := by
  refine Forest.walk_congr fun q j rest t split here => ?_
  have lowQ := lowPath_closed q (j :: rest) (split ▸ low)
  rw [Mem.entry_congr (keeps q t lowQ here)]

theorem Keeps.refl : Keeps k k root := fun _ _ _ _ _ _ => rfl

theorem Keeps.trans {k2 : Kernel} (first : Keeps k k' root) (second : Keeps k' k2 root) : Keeps k k2 root := by
  intro p f low reached x here
  rw [second p f low ((first.walk low).trans reached) x here, first p f low reached x here]

/-- The processor finds the same entries. -/
theorem Keeps.hwWalk {p : List (Fin 512)} (keeps : Keeps k k' root) (low : LowPath p) :
    ProkaKernel.hwWalk k'.mem root p = ProkaKernel.hwWalk k.mem root p := by
  refine hwWalk_congr fun q j rest t split here => ?_
  exact Mem.entry_congr (keeps q t (lowPath_closed q (j :: rest) (split ▸ low)) here) j

theorem Sealed.known_tables (before : k.Sealed R spaces) :
    ∀ t ∈ { t | ∃ space ∈ spaces, t = space.2 * 4096 }, ∃ r ∈ R, t = r * 4096 := by
  rintro t ⟨space, there, rfl⟩
  exact ⟨space.2, (before.known space there).1, rfl⟩

theorem Sealed.extend (before : k.Sealed R spaces) : k.Sealed R (spaces ∪ k.spaces) where
  valid := before.valid
  paged := before.paged
  single := before.single
  reserved := before.reserved
  known space there := there.elim (before.known space) (before.valid.spaces_known space)

/-- The target of a store is no table of any kind. -/
theorem Sealed.target_free (before : k.Sealed R spaces) {p : List (Fin 512)} {g : Nat} (member : root ∈ R)
    (length : p.length = 4)
    (target : (LowPath p ∧ tableWalk k.mem root p = some g) ∨ (0x1800 ≤ g ∧ g < usedPage)) :
    (∀ r ∈ R, ∀ q, LowPath q → q.length ≤ 3 → tableWalk k.mem r q ≠ some g) ∧ ¬UpperTable g := by
  have spaces := before.valid.stage.owns.spaces
  have reserved := before.reserved
  rcases target with ⟨low, leaf⟩ | ⟨lower, upper⟩
  · refine ⟨fun r member' q low' short table => ?_, fun upper => ?_⟩
    · obtain ⟨_, rfl⟩ := spaces.exclusive member' member low' low table leaf
      omega
    · have above := (spaces.placed g ⟨root, p, member, low, leaf⟩).2
      have range := upper.range.2.1
      rw [reserved, usedPage] at above
      omega
  · refine ⟨fun r member' q low' short table => ?_, fun upper => ?_⟩
    · have above := (spaces.placed g ⟨r, q, member', low', table⟩).2
      omega
    · have range := upper.range.2.1
      omega

/-- Every event of the machine keeps the address spaces apart. -/
theorem Sealed.step (mapper : PageMapper) (parse : List UInt8 → Option Image) {event : MachineEvent}
    (before : k.Sealed R spaces) (caller : event.By spaces) (run : k.machineStep mapper parse event = some k') :
    ∃ R', R ⊆ R' ∧ k'.Sealed R' (spaces ∪ k'.spaces) := by
  cases event with
  | kernel event =>
    obtain ⟨R', goes⟩ := before.valid.step mapper parse before.known_tables caller run
    exact ⟨R', goes.grows, before.goes goes⟩
  | store typ root addr byte =>
    obtain rfl := Option.some.inj run
    have space := before.known _ caller
    refine ⟨R, fun _ => id, ?_⟩
    rcases before.store_cases space byte with same | ⟨g, m, stored, others, target⟩
    · rw [same]
      exact before.extend
    · obtain ⟨noTable, noUpper⟩ := before.target_free space.1 rfl target
      rw [stored]
      exact (before.write others noTable noUpper).extend

theorem Sealed.mine (before : k.Sealed R spaces) {event : KernelEvent} (caller : (MachineEvent.kernel event).By spaces)
    (other : event.table k.sched ≠ some (root * 4096)) :
    ∀ t ∈ event.table k.sched, ∃ r ∈ R \ {root}, t = r * 4096 := by
  have apart {t : Nat} (own : event.table k.sched = some t) (known : ∃ r ∈ R, t = r * 4096) :
      ∃ r ∈ R \ {root}, t = r * 4096 := by
    obtain ⟨r, member, rfl⟩ := known
    exact ⟨r, ⟨member, fun same => other (same ▸ own)⟩, rfl⟩
  intro t own
  refine apart own ?_
  cases event with
  | create | tick => cases own
  | remove typ index =>
    obtain ⟨present, same⟩ := Option.ite_none_right_eq_some.mp own
    cases Option.some.inj same
    obtain ⟨r, space, table⟩ := before.valid.slots.rooted typ index (before.valid.slots.present typ index present)
    exact ⟨r, space.1, table⟩
  | allocate | deallocate | pagefault =>
    cases Option.some.inj own
    exact before.known_tables _ caller

/-- An event that does not work on an address space keeps its memory. -/
theorem Sealed.keeps (mapper : PageMapper) (parse : List UInt8 → Option Image) {event : MachineEvent}
    (before : k.Sealed R spaces) (caller : event.By spaces) (member : root ∈ R)
    (other : event.table k.sched ≠ some (root * 4096)) (run : k.machineStep mapper parse event = some k') :
    Keeps k k' root := by
  intro p f low reached x here
  have spaces := before.valid.stage.owns.spaces
  have taken := spaces.placed f ⟨root, p, member, low, reached⟩
  cases event with
  | kernel event =>
    have stage : Stage k.sched (R \ {root}) [] k := before.valid.stage.forget Set.sdiff_subset
    obtain ⟨R', edits⟩ := step_edits mapper parse stage (before.mine caller other) run
    refine edits.bystander_byte stage.owns ⟨taken, ?_, List.not_mem_nil⟩ here
    rintro ⟨r, q, ⟨known, apart⟩, low', reached'⟩
    exact apart (spaces.exclusive known member low' low reached' reached).1
  | store typ root' addr byte =>
    obtain rfl := Option.some.inj run
    have space := before.known _ caller
    rcases before.store_cases space byte with same | ⟨g, m, stored, others, target⟩
    · rw [same]
    · rw [stored]
      refine others x ?_
      rintro rfl
      rw [here] at target
      rcases target with ⟨low', leaf⟩ | ⟨_, window⟩
      · obtain ⟨rfl, _⟩ := spaces.exclusive space.1 member low' low leaf reached
        exact other rfl
      · rw [← before.reserved] at window
        have above := taken.2
        omega

theorem MachineRun.sealed {mapper : PageMapper} {parse : List UInt8 → Option Image}
    {allowed : Kernel → MachineEvent → Prop} {spaces' : Set (ProcType × Nat)} (before : k.Sealed R spaces)
    (run : MachineRun mapper parse allowed k spaces k' spaces') : ∃ R', R ⊆ R' ∧ k'.Sealed R' spaces' := by
  induction run with
  | refl => exact ⟨R, fun _ => id, before⟩
  | next _ caller _ step ih =>
    obtain ⟨R1, grows, sealed⟩ := ih
    obtain ⟨R2, grows', sealed'⟩ := sealed.step mapper parse caller step
    exact ⟨R2, grows.trans grows', sealed'⟩

theorem MachineRun.keeps {mapper : PageMapper} {parse : List UInt8 → Option Image} {spaces' : Set (ProcType × Nat)}
    (before : k.Sealed R spaces) (member : root ∈ R)
    (run : MachineRun mapper parse (fun k event => event.table k.sched ≠ some (root * 4096)) k spaces k' spaces') :
    Keeps k k' root := by
  induction run with
  | refl => exact Keeps.refl
  | next earlier caller other step ih =>
    obtain ⟨R1, grows, sealed⟩ := earlier.sealed before
    exact ih.trans (sealed.keeps mapper parse caller (grows member) other step)

/-- Memory integrity. From any state that the machine can reach, whatever the
other processes store and ask of the kernel, a process finds its pages where
they were, with the same rights and the same bytes. -/
theorem memory_integrity (mapper : PageMapper) (parse : List UInt8 → Option Image) {map : MemoryMap} {start : Kernel}
    {spaces' : Set (ProcType × Nat)} (booted : Booted map start)
    (reach : MachineRun mapper parse (fun _ _ => True) start ∅ k spaces) (there : (typ, root) ∈ spaces)
    (run : MachineRun mapper parse (fun k event => event.table k.sched ≠ some (root * 4096)) k spaces k' spaces')
    (low : addr < 2 ^ 47) :
    hwWalk k'.mem root (pagePath (addr / 4096)) = hwWalk k.mem root (pagePath (addr / 4096)) ∧
      ∀ entries, hwWalk k.mem root (pagePath (addr / 4096)) = some entries →
        k'.mem (physAddr 4 entries addr) = k.mem (physAddr 4 entries addr) := by
  obtain ⟨R, _, sealed⟩ := reach.sealed booted.sealed
  have member : root ∈ R := (sealed.known _ there).1
  have keeps := run.keeps sealed member
  have path : LowPath (pagePath (addr / 4096)) := pagePath_low (by omega)
  refine ⟨keeps.hwWalk path, fun entries walked => ?_⟩
  have first : (Fin.ofNat 512 (addr / 4096 / 512 ^ 3)).val < 256 := path.2 _ rfl
  exact keeps _ _ path (sealed.low_frame member first walked).2 _ rfl

/-- A process on the small machine; then a driver is created and stores a byte
on its stack, which changes nothing for the process. -/
theorem memory_integrity_stored_byte :
    ∃ k k' spaces spaces', MachineRun FourLevel.mapper flatParse (fun _ _ => True) pagedKernel ∅ k spaces ∧
      (ProcType.normal, 0x1e02) ∈ spaces ∧
      MachineRun FourLevel.mapper flatParse (fun k event => event.table k.sched ≠ some (0x1e02 * 4096)) k spaces k' spaces' ∧
      ((hwWalk k'.mem 0x1e0c (pagePath 0x7fffffffe)).map fun entries => k'.mem (physAddr 4 entries 0x7fffffffe123)) =
        some 0x55 ∧
      hwWalk k'.mem 0x1e02 (pagePath 0x200) = hwWalk k.mem 0x1e02 (pagePath 0x200) := by
  have run : ((pagedKernel.step FourLevel.mapper flatParse (.create [0x90] 0)).bind fun k1 =>
      (k1.step FourLevel.mapper flatParse (.create [1, 0x90] 0)).map fun k2 =>
        let k3 := k2.store .driver 0x1e0c 0x7fffffffe123 0x55
        ([(k1.sched.slot .normal 0).tableAddr, (k2.sched.slot .driver 0).tableAddr],
          (hwWalk k3.mem 0x1e0c (pagePath 0x7fffffffe)).map fun entries => k3.mem (physAddr 4 entries 0x7fffffffe123))) =
      some ([0x1e02 * 4096, 0x1e0c * 4096], some 0x55) := by
    decide +kernel
  obtain ⟨k1, first, run⟩ := Option.bind_eq_some_iff.mp run
  obtain ⟨k2, second, same⟩ := Option.map_eq_some_iff.mp run
  obtain ⟨tables, stored⟩ := Prod.mk.inj same
  simp only [List.cons.injEq, and_true] at tables
  obtain ⟨process, driver⟩ := tables
  have there : (ProcType.normal, 0x1e02) ∈ ∅ ∪ k1.spaces := Or.inr ⟨0, process, by decide⟩
  have created : pagedKernel.machineStep FourLevel.mapper flatParse (.kernel (.create [0x90] 0)) = some k1 := first
  have created' : k1.machineStep FourLevel.mapper flatParse (.kernel (.create [1, 0x90] 0)) = some k2 := second
  have store : k2.machineStep FourLevel.mapper flatParse (.store .driver 0x1e0c 0x7fffffffe123 0x55) = some _ := rfl
  have reach : MachineRun FourLevel.mapper flatParse (fun _ _ => True) pagedKernel ∅ k1 (∅ ∪ k1.spaces) :=
    MachineRun.refl.next (by exact trivial) trivial created
  have rest : MachineRun FourLevel.mapper flatParse (fun k event => event.table k.sched ≠ some (0x1e02 * 4096)) k1
      (∅ ∪ k1.spaces) (k2.store .driver 0x1e0c 0x7fffffffe123 0x55) _ :=
    (MachineRun.refl.next (by exact trivial) (Option.some_ne_none _).symm created').next
      (by exact Or.inr ⟨0, driver, by decide⟩) (by exact fun same => absurd (Option.some.inj same) (by decide)) store
  exact ⟨k1, _, _, _, reach, there, rest, stored,
    (memory_integrity FourLevel.mapper flatParse pagedKernel_booted reach there rest (show 0x200000 < 2 ^ 47 by decide)).1⟩

end

end Kernel

end ProkaKernel
