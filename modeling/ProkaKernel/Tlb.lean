import ProkaKernel.KernelWindow

namespace ProkaKernel
open Paging PageFlags

/-- What the processor remembers of a page: its frame, the rights that all levels
grant together, and whether the page is global. -/
structure Translation where
  frame : Nat
  writable : Bool
  user : Bool
  executable : Bool
  global : Bool

def Translation.ofEntries (page : Nat) (entries : List Nat) : Translation where
  frame := physAddr 4 entries (page * 4096) / 4096
  writable := entries.all fun e => e / 2 % 2 == 1
  user := entries.all fun e => e / 4 % 2 == 1
  executable := entries.all fun e => e / 2 ^ 63 % 2 == 0
  global := entries.getLastD 0 / 2 ^ 8 % 2 == 1

/-- The translation of a page by the tables below `root`. -/
def walkPage (m : Mem) (root page : Nat) : Option Translation :=
  (hwWalk m root (pagePath page)).map (Translation.ofEntries page)

/-- The translation of a page of the kernel's upper half. -/
def walkHigh (m : Mem) (page : Nat) : Option Translation :=
  if Fin.ofNat 512 (page / 512 ^ 3) = 256 then
    (hwWalk m pdptHigh (pagePath page).tail).map fun entries => .ofEntries page (pte pdptHigh flags :: entries)
  else none

/-- A process stores a byte by a translation that the processor remembers. -/
def Kernel.storeThrough (k : Kernel) (typ : ProcType) (entry : Translation) (addr : Nat) (byte : UInt8) : Kernel :=
  if entry.writable && (typ == .driver || entry.user) then
    { k with mem := Function.update k.mem (entry.frame * 4096 + addr % 4096) byte }
  else k

/-- The processor is in the kernel, on the kernel's table, or in a process on the
table of that process. -/
inductive Mode
  | kernel
  | process (typ : ProcType) (root : Nat)

/-- The machine with the translations that its processor remembers (its TLB). -/
structure Processor where
  kernel : Kernel
  mode : Mode := .kernel
  tlb : Set (Nat × Translation) := ∅
  spaces : Set (ProcType × Nat) := ∅

namespace Processor

/-- A load of CR3 drops all translations but the global ones. -/
def loadCr3 (s : Processor) (mode : Mode) : Processor :=
  { s with mode := mode, tlb := { known | known ∈ s.tlb ∧ known.2.global = true } }

/-- What the processor does. It may remember any page of the current table at any time,
and forget it again. The handlers of interrupts, faults and system calls load the
kernel's table first and the table of a process last; in between the tables change, and
no translation is ever flushed. Of the pages that the kernel has outside its upper half
only that they are not global is known. -/
inductive Step (mapper : PageMapper) (parse : List UInt8 → Option Image) (s : Processor) : Processor → Prop
  | cache {typ root page entry} : s.mode = .process typ root → walkPage s.kernel.mem root page = some entry →
      Step mapper parse s { s with tlb := insert (page, entry) s.tlb }
  | cacheKernel {page entry} : s.mode = .kernel →
      (entry.global = false ∨ walkHigh s.kernel.mem page = some entry) →
      Step mapper parse s { s with tlb := insert (page, entry) s.tlb }
  | evict {tlb} : tlb ⊆ s.tlb → Step mapper parse s { s with tlb := tlb }
  | enter : Step mapper parse s (s.loadCr3 .kernel)
  | event {event k} : s.mode = .kernel → (MachineEvent.kernel event).By s.spaces →
      s.kernel.step mapper parse event = some k →
      Step mapper parse s { s with kernel := k, spaces := s.spaces ∪ k.spaces }
  | leave {typ root} : s.mode = .kernel → (typ, root) ∈ s.spaces → Step mapper parse s (s.loadCr3 (.process typ root))
  | store {typ root entry k} (addr byte) : s.mode = .process typ root → (addr / 4096, entry) ∈ s.tlb →
      s.kernel.storeThrough typ entry addr byte = k →
      Step mapper parse s { s with kernel := k, spaces := s.spaces ∪ k.spaces }

end Processor

/-- The pages of paging::init that are global. -/
def GlobalPage (page : Nat) (entry : Translation) : Prop :=
  Fin.ofNat 512 (page / 512 ^ 3) = 256 ∧ ∃ entries,
    Global (Fin.ofNat 512 (page / 512 ^ 2)) (Fin.ofNat 512 (page / 512)) entries ∧
      entry = .ofEntries page (pte pdptHigh flags :: entries)

section
variable {m : Mem} {t page : Nat} {i j l : Fin 512} {entries : List Nat} {entry : Translation} {typ : ProcType} {root : Nat}

/-- The pages of the upper halves with the global flag. -/
theorem Paged.global_leaf (paged : Paged m) (shared : Shared t) (run : hwWalk m t [i, j, l] = some entries)
    (bit : entries.getLastD 0 / 2 ^ 8 % 2 = 1) : Global i j entries := by
  have none {frame flags : Nat} (leaf : entries.getLastD 0 = pte frame flags) (clear : flags < 2 ^ 8) :
      Global i j entries := by
    rw [leaf, pte] at bit
    omega
  rcases shared with rfl | rfl
  · rcases paged.high_walk run with ⟨_, _, rfl⟩ | ⟨_, _, _, rfl⟩ | shared
    · exact none rfl (by decide)
    · exact none rfl (by decide)
    · exact shared
  · rcases paged.hproc_walk run with ⟨_, _, rfl⟩ | shared
    · exact none rfl (by decide)
    · exact shared

/-- They are in both upper halves. -/
theorem Whole.global_walk (whole : Whole m) (shared : Shared t) (global : Global i j entries) :
    hwWalk m t [i, j, l] = some entries := by
  have link {frame : Nat} (listed : upperEntry t i = pte frame flags) (inRam : frame < 2 ^ 40) :
      hwWalk m t [i, j, l] = (hwWalk m frame [j, l]).map (pte frame flags :: ·) :=
    hwWalk_link ((whole t i shared.upper).trans listed) inRam (by decide) (by decide)
  have huge {frame e : Nat} (table : UpperPdt frame) (listed : upperEntry frame j = e) (present : e % 2 = 1)
      (bit : e / 128 % 2 = 1) : hwWalk m frame [j, l] = some [e] :=
    hwWalk_huge ((whole frame j table.upperTable).trans listed) present bit
  rcases global with ⟨rfl, rfl, rfl⟩ | ⟨rfl, rfl, rfl⟩ | ⟨rfl, rfl, rfl⟩
  · have listed : upperEntry t 1 = pte pdtGs flags := by rcases shared with rfl | rfl <;> rfl
    rw [link listed (by decide), huge (Or.inr (Or.inr (Or.inl rfl))) rfl (by decide) (by decide)]
    rfl
  · have listed : upperEntry t 2 = pte pdtGrw flags := by rcases shared with rfl | rfl <;> rfl
    rw [link listed (by decide), huge (Or.inr (Or.inr (Or.inr rfl))) rfl (by decide) (by decide)]
    rfl
  · have listed : upperEntry t 2 = pte pdtGrw flags := by rcases shared with rfl | rfl <;> rfl
    rw [link listed (by decide), huge (Or.inr (Or.inr (Or.inr rfl))) rfl (by decide) (by decide)]
    rfl

/-- The rights of a global page do not depend on the kind of process. -/
theorem Global.ofEntries_eq (global : Global i j entries) (shared : Shared t) :
    Translation.ofEntries page (pte t flags :: entries) = .ofEntries page (pte pdptHigh flags :: entries) := by
  have nonempty : entries ≠ [] := by
    rcases global with ⟨_, _, rfl⟩ | ⟨_, _, rfl⟩ | ⟨_, _, rfl⟩ <;> exact List.cons_ne_nil _ _
  rcases shared with rfl | rfl
  · rfl
  · obtain ⟨e, es, rfl⟩ := List.exists_cons_of_ne_nil nonempty
    rfl

theorem hwWalk_ne_nil {rest : List (Fin 512)} (run : hwWalk m t (i :: rest) = some entries) : entries ≠ [] := by
  obtain ⟨_, ⟨_, _, rfl⟩ | ⟨_, _, _, rfl⟩⟩ := hwWalk_cons run <;> exact List.cons_ne_nil _ _

/-- What is global in an upper half is one of these pages. -/
theorem Paged.globalPage (paged : Paged m) (shared : Shared t) (top : Fin.ofNat 512 (page / 512 ^ 3) = 256)
    (run : hwWalk m t (pagePath page).tail = some entries)
    (bit : (Translation.ofEntries page (pte t flags :: entries)).global = true) :
    GlobalPage page (.ofEntries page (pte t flags :: entries)) := by
  have last : entries.getLastD 0 / 2 ^ 8 % 2 = 1 := by
    obtain ⟨e, es, rfl⟩ := List.exists_cons_of_ne_nil (hwWalk_ne_nil run)
    exact beq_iff_eq.mp bit
  have global := paged.global_leaf shared run last
  exact ⟨top, entries, global, global.ofEntries_eq shared⟩

theorem LeafFlags.not_global {flags : Nat} (leaf : LeafFlags flags) : flags / 2 ^ 8 % 2 = 0 := by
  rcases leaf with ⟨typ, rfl⟩ | ⟨typ, executable, rfl⟩ | rfl
  · cases typ <;> decide
  · cases typ <;> cases executable <;> decide
  · decide

/-- No page of a process is global. -/
theorem entryRule_local : EntryRule False fun depth e => depth = 3 → e / 2 ^ 8 % 2 = 0 where
  zero _ _ := rfl
  table short _ _ last := absurd short (by omega)
  widen short _ _ _ _ last := absurd short (by omega)
  leaf leaf _ _ := by
    have clear := leaf.not_global
    unfold pte
    omega
  mmio := False.elim

/-- A page of 4 KiB inside a page of any size. -/
theorem physAddr_frame (levels : Nat) (entries : List Nat) (addr : Nat) :
    physAddr levels entries (addr / 4096 * 4096) / 4096 * 4096 + addr % 4096 = physAddr levels entries addr := by
  unfold physAddr
  dsimp only
  generalize 512 ^ (levels - entries.length) = pages
  generalize entries.getLastD 0 % 2 ^ 52 / (4096 * pages) = base
  have inner : addr / 4096 * 4096 % (4096 * pages) = 4096 * (addr / 4096 % pages) := by
    rw [Nat.mul_comm, Nat.mul_mod_mul_left]
  rw [inner, Nat.mod_mul, show base * (4096 * pages) = 4096 * (base * pages) by rw [Nat.mul_left_comm]]
  omega

/-- The upper half of a process. -/
theorem UpperLinked.walkPage_eq (linked : UpperLinked typ m root)
    (high : 256 ≤ (Fin.ofNat 512 (page / 512 ^ 3)).val) :
    walkPage m root page = if Fin.ofNat 512 (page / 512 ^ 3) = 256 then
      (hwWalk m (Kernel.upperTable typ) (pagePath page).tail).map fun entries =>
        .ofEntries page (pte (Kernel.upperTable typ) flags :: entries) else none := by
  have entry := linked _ high
  unfold walkPage
  split
  · rename_i top
    rw [if_pos top] at entry
    rw [pagePath, hwWalk_link entry (Kernel.upperTable_shared typ).lt (by decide) (by decide), Option.map_map]
    rfl
  · rename_i other
    rw [if_neg other] at entry
    rw [pagePath, hwWalk_absent entry]
    rfl

/-- Every process has the global pages. -/
theorem UpperLinked.walk_global (linked : UpperLinked typ m root) (whole : Whole m)
    (global : GlobalPage page entry) : walkPage m root page = some entry := by
  obtain ⟨top, entries, shared, rfl⟩ := global
  rw [linked.walkPage_eq (by rw [top]; exact Nat.le_refl 256), if_pos top]
  rw [show hwWalk m (Kernel.upperTable typ) (pagePath page).tail = some entries from
    whole.global_walk (Kernel.upperTable_shared typ) shared]
  exact congrArg some (shared.ofEntries_eq (Kernel.upperTable_shared typ))

end

namespace Kernel

section
variable {k : Kernel} {R : Set Nat} {spaces : Set (ProcType × Nat)} {typ : ProcType} {root addr page : Nat}
  {entry : Translation}

/-- A store by what the tables say is the store of the machine. -/
theorem storeThrough_eq (byte : UInt8) (known : walkPage k.mem root (addr / 4096) = some entry) :
    k.storeThrough typ entry addr byte = k.store typ root addr byte := by
  obtain ⟨entries, walked, rfl⟩ := Option.map_eq_some_iff.mp known
  have rights : ((Translation.ofEntries (addr / 4096) entries).writable &&
      (typ == .driver || (Translation.ofEntries (addr / 4096) entries).user)) = typ.mayStore entries := by
    rw [ProcType.mayStore, Translation.ofEntries, Bool.eq_iff_iff]
    cases typ with
    | driver => simp
    | normal => simp [imp_and, forall_and]
  have place : (Translation.ofEntries (addr / 4096) entries).frame * 4096 + addr % 4096 = physAddr 4 entries addr :=
    physAddr_frame 4 entries addr
  rw [storeThrough, rights, place, store, walked]

theorem Sealed.linked (before : k.Sealed R spaces) (anchored : (k.snapshot R []).Anchored) (there : (typ, root) ∈ spaces) :
    UpperLinked typ k.mem root := by
  obtain ⟨member, half⟩ := before.known _ there
  obtain ⟨_, linked⟩ := anchored.linked root member
  exact half.linked linked

/-- A process has no other global pages. -/
theorem Sealed.globalPage (before : k.Sealed R spaces) (anchored : (k.snapshot R []).Anchored)
    (leaves : LowEntries (fun depth e => depth = 3 → e / 2 ^ 8 % 2 = 0) k.mem R) (there : (typ, root) ∈ spaces)
    (known : walkPage k.mem root page = some entry) (bit : entry.global = true) : GlobalPage page entry := by
  have member := (before.known _ there).1
  by_cases low : (Fin.ofNat 512 (page / 512 ^ 3)).val < 256
  · obtain ⟨entries, walked, rfl⟩ := Option.map_eq_some_iff.mp known
    obtain ⟨q, i, rest, u, path, place, reached, leaf, _, present, kind⟩ := hwWalk_low low walked
    have table : pteFrame (k.mem.entry u i) ≠ none := by
      refine (before.single root member q i u place reached).resolve_left fun zero => ?_
      rw [zero] at present
      cases present
    have small : ¬k.mem.entry u i / 128 % 2 = 1 := fun huge => table (if_neg fun both => by omega)
    obtain rfl := kind.resolve_right small
    have length := congrArg List.length path
    rw [List.length_append] at length
    have clear := leaves root member q i u place reached (Nat.succ.inj length.symm)
    rw [← leaf] at clear
    have set : entries.getLastD 0 / 2 ^ 8 % 2 = 1 := beq_iff_eq.mp bit
    omega
  · rw [(before.linked anchored there).walkPage_eq (Nat.le_of_not_lt low)] at known
    obtain ⟨top, found⟩ := Option.ite_none_right_eq_some.mp known
    obtain ⟨entries, walked, rfl⟩ := Option.map_eq_some_iff.mp found
    exact before.paged.globalPage (upperTable_shared typ) top walked bit

/-- A store changes no translation. -/
theorem Sealed.store_walkPage (before : k.Sealed R spaces) (anchored : (k.snapshot R []).Anchored)
    (there : (typ, root) ∈ spaces) (byte : UInt8) :
    walkPage (k.store typ root addr byte).mem root page = walkPage k.mem root page := by
  have space := before.known _ there
  rcases before.store_cases space byte with same | ⟨g, m, stored, others, target⟩
  · rw [same]
  · obtain ⟨noTable, noUpper⟩ := before.target_free space.1 rfl target
    rw [stored]
    refine congrArg (Option.map _) (hwWalk_congr fun q j rest u split reached => entry_outside others ?_ j)
    rintro rfl
    have length := congrArg List.length split
    simp only [pagePath, List.length_cons, List.length_nil, List.length_append] at length
    by_cases low : LowPath (q ++ [j])
    · exact noTable root space.1 q (lowPath_closed q [j] low) (by omega) reached
    · have bound : (q ++ [j]).length ≤ 4 := by
        rw [List.length_append, List.length_singleton]
        omega
      rcases not_low_head bound low with ⟨rfl, _⟩ | ⟨i, q', rfl, high⟩
      · exact noTable root space.1 [] lowPath_nil (Nat.zero_le 3) reached
      · obtain ⟨v, first, rest'⟩ := Option.bind_eq_some_iff.mp reached
        rw [before.linked anchored there i high] at first
        split at first
        · rw [pteFrame_pte (upperTable_shared typ).lt (by decide)] at first
          cases Option.some.inj first
          rw [List.length_cons] at length
          exact noUpper (anchored.whole.reached (upperTable_shared typ) (by omega) rest').1
        · cases first

end

end Kernel

namespace Processor

section
variable {mapper : PageMapper} {parse : List UInt8 → Option Image} {map : MemoryMap} {start : Kernel}
  {s s' : Processor}

/-- What the processor remembers is right: the global pages for every process, and all
of it for the process that runs. -/
structure Coherent (mapper : PageMapper) (parse : List UInt8 → Option Image) (start : Kernel) (s : Processor) : Prop where
  run : Kernel.MachineRun mapper parse (fun _ _ => True) start ∅ s.kernel s.spaces
  globals : ∀ page entry, (page, entry) ∈ s.tlb → entry.global = true → GlobalPage page entry
  current : ∀ typ root, s.mode = .process typ root → (typ, root) ∈ s.spaces ∧
    ∀ page entry, (page, entry) ∈ s.tlb → walkPage s.kernel.mem root page = some entry

theorem Coherent.step (booted : Kernel.Booted map start) (before : s.Coherent mapper parse start)
    (step : s.Step mapper parse s') : s'.Coherent mapper parse start := by
  obtain ⟨R, sealed, anchored, rules, _⟩ := before.run.anchored booted
  cases step with
  | @cache typ root page entry mode known =>
    obtain ⟨there, right⟩ := before.current typ root mode
    refine ⟨before.run, ?_, fun typ' root' mode' => ?_⟩
    · rintro page' entry' (new | old)
      · cases new
        exact sealed.globalPage anchored (rules _ entryRule_local) there known
      · exact before.globals page' entry' old
    · cases mode.symm.trans mode'
      refine ⟨there, ?_⟩
      rintro page' entry' (new | old)
      · cases new
        exact known
      · exact right page' entry' old
  | @cacheKernel page entry mode known =>
    refine ⟨before.run, ?_, fun typ root mode' => nomatch mode.symm.trans mode'⟩
    rintro page' entry' (new | old) bit
    · cases new
      rcases known with clear | high
      · rw [clear] at bit
        cases bit
      · obtain ⟨top, found⟩ := Option.ite_none_right_eq_some.mp high
        obtain ⟨entries, walked, rfl⟩ := Option.map_eq_some_iff.mp found
        exact sealed.paged.globalPage (Or.inl rfl) top walked bit
    · exact before.globals page' entry' old bit
  | evict fewer =>
    refine ⟨before.run, fun page entry there => before.globals page entry (fewer there), fun typ root mode => ?_⟩
    obtain ⟨there, right⟩ := before.current typ root mode
    exact ⟨there, fun page entry known => right page entry (fewer known)⟩
  | enter =>
    exact ⟨before.run, fun page entry there => before.globals page entry there.1, fun typ root mode => nomatch mode⟩
  | event mode caller run =>
    refine ⟨before.run.next caller trivial run, before.globals, fun typ root mode' => nomatch mode.symm.trans mode'⟩
  | @leave typ root mode there =>
    refine ⟨before.run, fun page entry known => before.globals page entry known.1, fun typ' root' mode' => ?_⟩
    cases mode'
    refine ⟨there, fun page entry known => ?_⟩
    exact (sealed.linked anchored there).walk_global anchored.whole (before.globals page entry known.1 known.2)
  | @store typ root entry k addr byte mode known stored =>
    obtain ⟨there, right⟩ := before.current typ root mode
    rw [Kernel.storeThrough_eq byte (right _ _ known)] at stored
    have next : s.kernel.machineStep mapper parse (.store typ root addr byte) = some k := congrArg some stored
    refine ⟨before.run.next (by exact there) trivial next, before.globals, fun typ' root' mode' => ?_⟩
    cases mode.symm.trans mode'
    refine ⟨Or.inl there, fun page entry' known' => ?_⟩
    have same : walkPage k.mem root page = walkPage s.kernel.mem root page :=
      stored ▸ sealed.store_walkPage anchored there byte
    exact same.trans (right page entry' known')

/-- The TLB cannot be observed. Although the kernel changes tables without flushing a
single translation, whatever is remembered while a process runs is what its tables say,
and the machine with a TLB reaches only what the machine without one can reach. -/
theorem tlb_unobservable (mapper : PageMapper) (parse : List UInt8 → Option Image) (booted : Kernel.Booted map start)
    (run : Relation.ReflTransGen (Step mapper parse) { kernel := start } s) :
    Kernel.MachineRun mapper parse (fun _ _ => True) start ∅ s.kernel s.spaces ∧
      ∀ typ root, s.mode = .process typ root → (typ, root) ∈ s.spaces ∧
        ∀ page entry, (page, entry) ∈ s.tlb → walkPage s.kernel.mem root page = some entry := by
  have coherent : s.Coherent mapper parse start := by
    induction run with
    | refl => exact ⟨.refl, fun _ _ none => (nomatch none), fun _ _ mode => nomatch mode⟩
    | tail _ step ih => exact ih.step booted step
  exact ⟨coherent.run, coherent.current⟩

/-- A process of the small machine with a page of heap that the processor remembers.
After the process has given the page back it is forgotten. -/
theorem tlb_unobservable_freed_page :
    ∃ s s' entry, Relation.ReflTransGen (Step FourLevel.mapper flatParse) { kernel := Kernel.pagedKernel } s ∧
      (0x180000, entry) ∈ s.tlb ∧ Relation.ReflTransGen (Step FourLevel.mapper flatParse) s s' ∧
      s'.mode = .process .normal 0x1e02 ∧ ∀ entry, (0x180000, entry) ∉ s'.tlb := by
  have run : ((Kernel.pagedKernel.step FourLevel.mapper flatParse (.create [0x90] 0)).bind fun k1 =>
      (k1.step FourLevel.mapper flatParse (.allocate 0x1e02000 1)).bind fun k2 =>
        (k2.step FourLevel.mapper flatParse (.deallocate 0x1e02000 0x180000000)).map fun k3 =>
          ((k1.sched.slot .normal 0).tableAddr, (walkPage k2.mem 0x1e02 0x180000).isSome,
            (walkPage k3.mem 0x1e02 0x180000).isSome)) = some (0x1e02 * 4096, true, false) := by
    decide +kernel
  obtain ⟨k1, first, run⟩ := Option.bind_eq_some_iff.mp run
  obtain ⟨k2, second, run⟩ := Option.bind_eq_some_iff.mp run
  obtain ⟨k3, third, same⟩ := Option.map_eq_some_iff.mp run
  obtain ⟨table, rest⟩ := Prod.mk.inj same
  obtain ⟨found, lost⟩ := Prod.mk.inj rest
  obtain ⟨entry, known⟩ := Option.isSome_iff_exists.mp found
  have there : (ProcType.normal, 0x1e02) ∈ ∅ ∪ k1.spaces := Or.inr ⟨0, table, by decide⟩
  have caller {spaces : Set (ProcType × Nat)} (there : (ProcType.normal, 0x1e02) ∈ spaces) :
      0x1e02000 ∈ { t | ∃ space ∈ spaces, t = space.2 * 4096 } := ⟨_, there, by decide⟩
  let s1 : Processor := { kernel := k1, spaces := ∅ ∪ k1.spaces }
  let s2 : Processor := { kernel := k2, spaces := ∅ ∪ k1.spaces ∪ k2.spaces }
  let s3 := s2.loadCr3 (.process .normal 0x1e02)
  let s4 : Processor := { s3 with tlb := insert (0x180000, entry) s3.tlb }
  let s5 := s4.loadCr3 .kernel
  let s6 : Processor := { s5 with kernel := k3, spaces := s5.spaces ∪ k3.spaces }
  let s7 := s6.loadCr3 (.process .normal 0x1e02)
  have before : Relation.ReflTransGen (Step FourLevel.mapper flatParse) { kernel := Kernel.pagedKernel } s4 :=
    (((Relation.ReflTransGen.single (b := s1) (.event rfl (by exact trivial) first)).tail
      (c := s2) (.event rfl (by exact caller there) second)).tail
        (c := s3) (.leave rfl (Or.inl there))).tail (.cache rfl known)
  have after : Relation.ReflTransGen (Step FourLevel.mapper flatParse) s4 s7 :=
    ((Relation.ReflTransGen.single (b := s5) .enter).tail
      (c := s6) (.event rfl (by exact caller (Or.inl there)) third)).tail (.leave rfl (Or.inl (Or.inl there)))
  refine ⟨s4, s7, entry, before, Or.inl rfl, after, rfl, fun stale cached => ?_⟩
  have held := (tlb_unobservable FourLevel.mapper flatParse Kernel.pagedKernel_booted (before.trans after)).2 _ _ rfl
  have right := held.2 _ _ cached
  have gone : (walkPage k3.mem 0x1e02 0x180000).isSome = true := Option.isSome_of_eq_some right
  rw [lost] at gone
  cases gone

end

end Processor

end ProkaKernel
