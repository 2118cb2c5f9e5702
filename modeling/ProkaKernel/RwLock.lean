import Mathlib.Data.List.Basic

namespace ProkaKernel

/-- A spinning readers-writer lock with the guards that are out. A party stands
among the readers once for each of its guards. -/
structure RwLock (P : Type) where
  readers : List P
  writer : Option P
  exclusive : readers = [] ∨ writer = none

namespace RwLock

section
variable {P : Type}

def free : RwLock P := ⟨[], none, Or.inl rfl⟩

/-- A turn of the loop of `read`; `none` spins on. -/
def tryRead (lock : RwLock P) (party : P) : Option (RwLock P) :=
  match lock.writer with
  | none => some ⟨party :: lock.readers, none, Or.inr rfl⟩
  | some _ => none

/-- A turn of the loop of `write`; `none` spins on. -/
def tryWrite (lock : RwLock P) (party : P) : Option (RwLock P) :=
  match lock.readers, lock.writer with
  | [], none => some ⟨[], some party, Or.inl rfl⟩
  | _, _ => none

def dropRead [DecidableEq P] (lock : RwLock P) (party : P) : RwLock P where
  readers := lock.readers.erase party
  writer := lock.writer
  exclusive := lock.exclusive.imp_left fun empty => by rw [empty, List.erase_nil]

def dropWrite (lock : RwLock P) : RwLock P := ⟨lock.readers, none, Or.inr rfl⟩

/-- What a party can do with the lock. -/
inductive Step [DecidableEq P] (party : P) (lock : RwLock P) : RwLock P → Prop
  | read {lock'} : lock.tryRead party = some lock' → Step party lock lock'
  | write {lock'} : lock.tryWrite party = some lock' → Step party lock lock'
  | dropRead : party ∈ lock.readers → Step party lock (lock.dropRead party)
  | dropWrite : lock.writer = some party → Step party lock lock.dropWrite

end

section
variable {P : Type} {lock lock' : RwLock P} {party other : P}

theorem writer_none_of_reader (reads : party ∈ lock.readers) : lock.writer = none :=
  lock.exclusive.resolve_left (List.ne_nil_of_mem reads)

theorem tryRead_of_no_writer (party : P) (unlocked : lock.writer = none) :
    ∃ lock', lock.tryRead party = some lock' ∧ lock'.readers = party :: lock.readers := by
  unfold tryRead
  rw [unlocked]
  exact ⟨_, rfl, rfl⟩

theorem mem_tryRead (run : lock.tryRead party = some lock') : party ∈ lock'.readers := by
  unfold tryRead at run
  split at run
  · cases run
    exact List.mem_cons_self ..
  · cases run

/-- A guard for reading keeps every writer out, its own holder too. -/
theorem tryWrite_of_reader (reads : other ∈ lock.readers) : lock.tryWrite party = none := by
  unfold tryWrite
  split
  · rename_i empty _
    rw [empty] at reads
    cases reads
  · rfl

/-- No one else can drop a guard for reading. -/
theorem Step.reader [DecidableEq P] (step : Step party lock lock') (apart : other ≠ party) (reads : other ∈ lock.readers) :
    other ∈ lock'.readers := by
  cases step with
  | read run =>
    unfold tryRead at run
    split at run
    · cases run
      exact List.mem_cons_of_mem party reads
    · cases run
  | write run =>
    rw [tryWrite_of_reader reads] at run
    cases run
  | dropRead => exact (List.mem_erase_of_ne apart).mpr reads
  | dropWrite => exact reads

end

end RwLock

end ProkaKernel
