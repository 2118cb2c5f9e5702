import ProkaKernel.DeviceMemory
import ProkaKernel.HardwareWalk
import ProkaKernel.LowEntries

namespace ProkaKernel

/-- The leaf of a walk allows to write. -/
def LeafWritable (entries : List Nat) : Prop := entries.getLastD 0 / 2 % 2 = 1

/-- The leaf of a walk allows to execute. -/
def LeafExecutable (entries : List Nat) : Prop := entries.getLastD 0 / 2 ^ 63 % 2 = 0

/-- No mapping in a lower half is both writable and executable, and no frame
is writable at one place and executable at another. Device memory, which is
mapped by huge pages, may be mapped twice. -/
structure Kernel.WriteXorExecute (k : Kernel) : Prop where
  leaf : ∀ typ i root addr entries, k.Space typ i root → addr < 2 ^ 47 →
    hwWalk k.mem root (pagePath (addr / 4096)) = some entries → ¬(LeafWritable entries ∧ LeafExecutable entries)
  frame : ∀ typ i root addr entries typ' i' root' addr' entries', k.Space typ i root → k.Space typ' i' root' →
    addr < 2 ^ 47 → addr' < 2 ^ 47 → hwWalk k.mem root (pagePath (addr / 4096)) = some entries →
    hwWalk k.mem root' (pagePath (addr' / 4096)) = some entries' → entries.length = 4 → entries'.length = 4 →
    physAddr 4 entries addr / 4096 = physAddr 4 entries' addr' / 4096 →
    ¬(LeafWritable entries ∧ LeafExecutable entries')

/-- What the entries of the lower halves can be: links to tables, pages of the
last level with W^X flags, and huge pages without execution one level above. -/
def SafeEntry (d e : Nat) : Prop :=
  e = 0 ∨ (d ≤ 2 ∧ pteFrame e ≠ none) ∨ (d = 2 ∧ e / 2 ^ 63 % 2 = 1) ∨
    (d = 3 ∧ pteFrame e ≠ none ∧ ¬(e / 2 % 2 = 1 ∧ e / 2 ^ 63 % 2 = 0))

theorem LeafFlags.safe {flags : Nat} (leaf : LeafFlags flags) :
    flags % 2 ^ 63 < 4096 ∧ ¬(flags / 2 % 2 = 1 ∧ flags / 2 ^ 63 % 2 = 0) := by
  rcases leaf with ⟨typ, rfl⟩ | ⟨typ, executable, rfl⟩ | rfl
  · cases typ <;> decide
  · cases typ <;> cases executable <;> decide
  · decide

theorem entryRule_safe : EntryRule True SafeEntry where
  zero _ := Or.inl rfl
  table short table _ := Or.inr (Or.inl ⟨short, by rw [table]; exact Option.some_ne_none _⟩)
  widen := by
    intro d e e' short safe used same8 same
    rcases safe with zero | ⟨_, table⟩ | ⟨deep, never⟩ | ⟨last, _⟩
    · exact absurd zero used
    · exact Or.inr (Or.inl ⟨short, same ▸ table⟩)
    · exact Or.inr (Or.inr (Or.inl ⟨deep, by omega⟩))
    · omega
  leaf := by
    intro frame flags leaf inRam
    obtain ⟨small, safe⟩ := leaf.safe
    refine Or.inr (Or.inr (Or.inr ⟨rfl, ?_, ?_⟩))
    · rw [pteFrame_pte inRam leaf.ok]
      exact Option.some_ne_none frame
    · unfold pte
      omega
  mmio := by
    intro _ frame inRange
    refine Or.inr (Or.inr (Or.inl ⟨rfl, ?_⟩))
    have value : mmioFlags ||| PageFlags.hugePage = 2 ^ 63 + 0x9b := by decide
    unfold pte
    rw [value]
    omega

section
variable {m : Mem} {R : Set Nat} {root addr : Nat} {entries : List Nat}

theorem lowIndex (bound : addr < 2 ^ 47) : (Fin.ofNat 512 (addr / 4096 / 512 ^ 3)).val < 256 := by
  rw [Fin.val_ofNat]
  omega

/-- A leaf in a lower half is safe, and a page of 4 KiB has a place in it. -/
theorem LowEntries.leaf (safe : LowEntries SafeEntry m R) (member : root ∈ R) (bound : addr < 2 ^ 47)
    (run : hwWalk m root (pagePath (addr / 4096)) = some entries) :
    ¬(LeafWritable entries ∧ LeafExecutable entries) ∧
      (entries.length = 4 → tableWalk m root (pagePath (addr / 4096)) = some (entries.getLastD 0 / 4096 % 2 ^ 40)) := by
  obtain ⟨q, i, rest, u, path, place, reached, leaf, length, present, kind⟩ := hwWalk_low (lowIndex bound) run
  unfold LeafWritable LeafExecutable
  rw [leaf, length]
  have depth : 4 = (q ++ i :: rest).length := congrArg List.length path
  rw [List.length_append, List.length_cons] at depth
  have single (table : pteFrame (m.entry u i) ≠ none) : m.entry u i / 128 % 2 = 0 := by
    by_contra huge
    exact table (if_neg fun both => huge both.2)
  rcases safe root member q i u place reached with zero | ⟨short, table⟩ | ⟨deep, never⟩ | ⟨last, table, apart⟩
  · rw [zero] at present
    cases present
  · rcases kind with rfl | huge
    · rw [List.length_nil] at depth
      omega
    · have small := single table
      omega
  · refine ⟨fun both => ?_, fun four => ?_⟩
    · omega
    · omega
  · refine ⟨apart, fun _ => ?_⟩
    have done : rest = [] := List.eq_nil_of_length_eq_zero (by omega)
    rw [path, done, tableWalk, Forest.walk_through reached, pteFrame_table present (single table)]
    rfl

end

theorem Kernel.Valid.writeXorExecute {k : Kernel} {R : Set Nat} (valid : k.Valid R)
    (safe : LowEntries SafeEntry k.mem R) : k.WriteXorExecute where
  leaf typ i root addr entries space bound run := (safe.leaf (space.root valid.slots).1 bound run).1
  frame typ i root addr entries typ' i' root' addr' entries' space space' bound bound' run run' deep deep' same := by
    have member := (space.root valid.slots).1
    have member' := (space'.root valid.slots).1
    obtain ⟨apart, mapped⟩ := safe.leaf member bound run
    have mapped' := (safe.leaf member' bound' run').2 deep'
    rw [physAddr_page deep, physAddr_page deep'] at same
    have frame : entries.getLastD 0 / 4096 % 2 ^ 40 = entries'.getLastD 0 / 4096 % 2 ^ 40 := by omega
    obtain ⟨rfl, path⟩ := valid.stage.owns.spaces.exclusive member member' (pagePath_low (by omega))
      (pagePath_low (by omega)) (mapped deep) (frame ▸ mapped')
    rw [path, run'] at run
    cases run
    exact apart

/-- Every process keeps to W^X in every run, with the device memory of drivers. -/
theorem Kernel.write_xor_execute (mapper : DeviceMapper) (parse : List UInt8 → Option Image) {map : MemoryMap}
    {start k : Kernel} {tables : Set Nat} (boot : start.Boot map) (reach : DeviceReach mapper parse start k tables) :
    k.WriteXorExecute := by
  obtain ⟨R, valid, edits, _⟩ := reach.edits mapper boot
  exact valid.writeXorExecute (edits.lowEntries entryRule_safe boot.valid.stage.owns fun _ none => nomatch none)

/-- A driver registers itself and gets the memory of its device, beside its
executable code. -/
theorem Kernel.write_xor_execute_device :
    ∃ k tables, DeviceReach FourLevel.deviceMapper flatParse smallKernel k tables ∧ k.Space .driver 0 0x1e02 ∧
      (∃ entries, hwWalk k.mem 0x1e02 (pagePath 0xfe000) = some entries ∧ LeafWritable entries) ∧
      (∃ entries, hwWalk k.mem 0x1e02 (pagePath 0x200) = some entries ∧ LeafExecutable entries) ∧ k.WriteXorExecute := by
  have run : ((smallKernel.deviceStep FourLevel.deviceMapper flatParse (.kernel (.create [1, 0x90] 0))).bind fun k1 =>
      (k1.deviceStep FourLevel.deviceMapper flatParse (.coredrv (0x1e02 * 4096) [some (.memory32 0xfe000000 4096)])).map
        fun k2 => ((k1.sched.slot .driver 0).tableAddr, (k2.sched.slot .driver 0).tableAddr,
          (hwWalk k2.mem 0x1e02 (pagePath 0xfe000)).map fun entries => entries.getLastD 0 / 2 % 2,
          (hwWalk k2.mem 0x1e02 (pagePath 0x200)).map fun entries => entries.getLastD 0 / 2 ^ 63 % 2)) =
      some (0x1e02 * 4096, 0x1e02 * 4096, some 1, some 0) := by
    decide +kernel
  obtain ⟨k1, first, run⟩ := Option.bind_eq_some_iff.mp run
  obtain ⟨k2, second, same⟩ := Option.map_eq_some_iff.mp run
  obtain ⟨table, same⟩ := Prod.mk.inj same
  obtain ⟨driver, same⟩ := Prod.mk.inj same
  obtain ⟨device, code⟩ := Prod.mk.inj same
  have reach := (DeviceReach.boot.next (by exact trivial) first).next
    (by exact Or.inr ⟨by decide, .driver, 0, table⟩) second
  exact ⟨k2, _, reach, ⟨driver, by decide⟩, Option.map_eq_some_iff.mp device, Option.map_eq_some_iff.mp code,
    write_xor_execute FourLevel.deviceMapper flatParse smallKernel_boot reach⟩

end ProkaKernel
