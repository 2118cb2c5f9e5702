import ProkaKernel.HeapKernel

namespace ProkaKernel

namespace Kernel

/-- What the end of a vector's life does to the kernel. -/
def freeBuffer (size : Nat) (buf : Buffer) (k : Kernel) : Kernel :=
  { k with alloc := (k.heap.dealloc buf.ptr (buf.layout size)).frames }

section Create
variable (mapper : PageMapper) (growth : VecGrowth)

/-- The section loading loop of `create`, with the buffer of `section_info`. -/
def loadInto (data : List UInt8) : List Section → List SectionData → Buffer → Prog Kernel Error (List SectionData × Buffer)
  | [], infos, buf => pure (infos, buf)
  | sec :: rest, infos, buf =>
    if sec.loadable then do
      match ← allocateContiguous (divCeil sec.size pageSize) with
      | none => do
        dropBuffer 24 buf
        Prog.fail .memoryNotEnough
      | some frame => do
        let buf ← reserve growth 24 infos.length buf
        let bytes ← Prog.unwrap (slice data sec.base sec.size)
        Prog.write fun k => { k with mem := k.mem.copy (frame * 4096) bytes }
        loadInto data rest (infos ++ [⟨frame * 4096, divCeil sec.size pageSize, sec.execable⟩]) buf
    else loadInto data rest infos buf

/-- `create` up to `create_normal` and `create_driver`. The vector
`section_info` ends with the mapping loop, or with the error that stops it. -/
def buildSpace (data : List UInt8) (image : Image) : Prog Kernel Error Nat := do
  let loaded ← loadInto growth data image.sections [] {}
  Prog.ensure (makeSpace mapper image.procType loaded.1) (freeBuffer 24 loaded.2)

end Create

end Kernel

/-- The kernel with its vectors: the `heap_range` of the processes, the two
queues, and the two process tables, which are built when they are first used. -/
structure TaskKernel extends HeapKernel where
  queues : ProcType → Buffer := fun _ => {}
  built : ProcType → Bool := fun _ => false

/-- The sizes of `NormalProcess` and `DriverProcess`. -/
def ProcType.bytes : ProcType → Nat
  | .normal => 224
  | .driver => 216

namespace TaskKernel
open Kernel

/-- The kernel before any of its vectors is used. -/
def fresh (k : Kernel) : TaskKernel := { kernel := k }

def onKernel {ε α : Type} (x : Prog Kernel ε α) : Prog TaskKernel ε α :=
  Prog.within (fun t => t.kernel) (fun t k => { t with kernel := k }) x

/-- A process table is built. -/
def build {ε : Type} (typ : ProcType) : Prog TaskKernel ε Unit := do
  let built ← Prog.read fun t => t.built typ
  if built then pure ()
  else do
    let _ ← onKernel (newBuffer typ.bytes maxPs)
    Prog.write fun t => { t with built := Function.update t.built typ true }

/-- The process that had the slot of the newest one before ends, and its
`heap_range` with it. -/
def dropOld (typ : ProcType) (t : TaskKernel) : TaskKernel :=
  match typ with
  | .normal => { t with toHeapKernel := t.replace t.kernel (t.kernel.newestSlot .normal) }
  | .driver => t

section Create
variable (mapper : PageMapper) (growth : VecGrowth) (parse : List UInt8 → Option Image)

/-- `create_normal` and `create_driver`. -/
def enlist (typ : ProcType) (pml4 priority : Nat) : Prog TaskKernel Error Unit := do
  build typ
  let before ← Prog.read id
  onKernel (enroll typ pml4 priority)
  Prog.write (dropOld typ)
  let queue ← onKernel (reserve growth 8 (before.kernel.sched.queue typ).length (before.queues typ))
  Prog.write fun t => { t with queues := Function.update t.queues typ queue }

def create (data : List UInt8) (priority : Nat) : Prog TaskKernel Error Unit := do
  let image ← Prog.orFail .invalidFormat (parse data)
  if image.valid then do
    let pml4 ← onKernel (buildSpace mapper growth data image)
    enlist growth image.procType pml4 priority
  else Prog.fail .invalidFormat

/-- One event; `none` is a panic, which ends the run. -/
def step (t : TaskKernel) : HeapEvent → Option TaskKernel
  | .create data priority => (create mapper growth parse data priority t).map Prod.snd
  | event => (t.toHeapKernel.step mapper growth parse event).map fun h => { t with toHeapKernel := h }

/-- All runs, with the level-4 tables of all processes created so far. The
process tables may be built before they are needed for a process. -/
inductive Reach (start : TaskKernel) : TaskKernel → Set Nat → Prop
  | boot : Reach start start ∅
  | build {t t' tables typ} : Reach start t tables → (TaskKernel.build typ : Prog TaskKernel Error Unit) t = some (.ok (), t') →
      Reach start t' tables
  | next {t t' tables event} : Reach start t tables → event.By tables → t.step mapper growth parse event = some t' →
      Reach start t' (tables ∪ t'.kernel.tables)

end Create

end TaskKernel

end ProkaKernel
