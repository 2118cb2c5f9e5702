import ProkaKernel.ImageLayout
import ProkaKernel.SchedulerRefinement
import ProkaKernel.MemoryIntegrity

namespace ProkaKernel

/-- The header of an executable. The mode is a set of bits. -/
structure ExecHeader where
  mode : Nat
  valid : Bool
  sections : List Section

/-- The two modes that the kernel asks for. -/
structure ExecMode where
  userApp : Nat
  coreDrv : Nat

def ExecMode.contains (mode flag : Nat) : Bool := mode &&& flag == flag

/-- What `create` takes from a header. -/
def ExecHeader.image (modes : ExecMode) (header : ExecHeader) : Image :=
  ⟨header.valid, ExecMode.contains header.mode modes.coreDrv, header.sections⟩

/-- An open file. One `read` puts some bytes at the start of the buffer, which need
not be all of them. -/
structure FatFile where
  size : Nat
  read : Option (List UInt8)
  fits : ∀ bytes ∈ read, bytes.length ≤ size

structure FatDir where
  openFile : String → Option FatFile

structure FatFs where
  rootDir : FatDir
  openDirPath : String → Option FatDir

namespace Initprt

/-- `load`: a buffer of zeros is read into once, and what that leaves stays zero. -/
def load (dir : FatDir) (file : String) : Option (List UInt8) := do
  let opened ← dir.openFile file
  let bytes ← opened.read
  pure (bytes ++ List.replicate (opened.size - bytes.length) 0)

section
variable (mapper : PageMapper) (modes : ExecMode) (parser : List UInt8 → Option ExecHeader)
  (toml : List UInt8 → Option (List String))

/-- What `create` learns from the parser. -/
def parse (data : List UInt8) : Option Image := (parser data).map (ExecHeader.image modes)

/-- `run`; a file of another mode than the one expected is a panic, as any error is. -/
def run (dir : FatDir) (mode : Nat) (k : Kernel) (file : String) : Option Kernel := do
  let buf ← load dir file
  let header ← parser buf
  if header.mode ≠ mode then none
  else match Kernel.create mapper (parse modes parser) buf 0 k with
    | some (.ok (), k') => some k'
    | _ => none

/-- `initprt::init`, on the file system that was found. -/
def init (fs : Option FatFs) (k : Kernel) : Option Kernel := do
  let fs ← fs
  let k ← run mapper modes parser fs.rootDir modes.userApp k "init"
  let drivers ← fs.openDirPath "drivers"
  let content ← load drivers "list.toml"
  let list ← toml content
  if list.isEmpty then pure k else list.foldlM (run mapper modes parser drivers modes.coreDrv) k

end

end Initprt

theorem readByte_kept {k k' : Kernel} {root addr : Nat} (keeps : Kernel.Keeps k k' root) (low : addr < 2 ^ 47) :
    readByte k'.mem root addr = readByte k.mem root addr := by
  have path : LowPath (pagePath (addr / 4096)) := pagePath_low (by omega)
  unfold readByte translate
  rw [keeps.walk path]
  cases reached : tableWalk k.mem root (pagePath (addr / 4096)) with
  | none => rfl
  | some frame => exact congrArg some (keeps _ frame path reached _ (by omega))

/-- An image that lies in the lower half stays where it is. -/
theorem ImageLaid.kept {k k' : Kernel} {root : Nat} {data : List UInt8} {secs : List Section}
    (laid : ImageLaid k.mem root data secs) (keeps : Kernel.Keeps k k' root) (low : 0x200 + pageCount secs ≤ 2 ^ 35) :
    ImageLaid k'.mem root data secs := by
  have same {page : Nat} (inside : page < pageCount secs) :
      translate k'.mem root (0x200 + page) = translate k.mem root (0x200 + page) :=
    keeps.walk (pagePath_low (by omega))
  refine ⟨fun before sec after split => ?_, fun before sec after split x inside => ?_, fun page inside => ?_⟩
  · obtain ⟨frame, pages⟩ := laid.pages before sec after split
    have total := pageCount_split before sec after
    rw [← split] at total
    exact ⟨frame, fun j bound => (same (by omega)).trans (pages j bound)⟩
  · have total := pageCount_split before sec after
    have size : sec.pages = _ := divCeil_page sec.size
    rw [← split] at total
    rw [readByte_kept keeps (by omega)]
    exact laid.bytes before sec after split x inside
  · rw [same inside]
    exact laid.mapped page inside

namespace Kernel

section
variable {mapper : PageMapper} {parse : List UInt8 → Option Image} {k k' : Kernel} {R : Set Nat} {root : Nat}

/-- A new process leaves the memory of the others alone. -/
theorem create_keeps {data : List UInt8} {priority : Nat} {out : Except Error Unit} (valid : k.Valid R) (member : root ∈ R)
    (run : create mapper parse data priority k = some (out, k')) : Keeps k k' root := by
  intro p f low reached x here
  have spaces := valid.stage.owns.spaces
  have stage : Stage k.sched (R \ {root}) [] k := valid.stage.forget Set.sdiff_subset
  have step : k.step mapper parse (.create data priority) = some k' := congrArg (Option.map Prod.snd) run
  obtain ⟨R', edits⟩ := step_edits mapper parse stage (fun _ own => by cases own) step
  refine edits.bystander_byte stage.owns ⟨spaces.placed f ⟨root, p, member, low, reached⟩, ?_, List.not_mem_nil⟩ here
  rintro ⟨r, q, ⟨known, apart⟩, low', reached'⟩
  exact apart (spaces.exclusive known member low' low reached' reached).1

/-- An image whose sections have one page each ends in the lower half. -/
theorem Placed.low_image {data : List UInt8} {secs : List Section} {m : Mem} {stackBase : Nat} {infos : List SectionData}
    (placed : Placed data secs m root infos stackBase) (single : ∀ sec ∈ secs.filter Section.loadable, sec.pages ≤ 1) :
    0x200 + pageCount (secs.filter Section.loadable) ≤ 2 ^ 35 := by
  by_contra high
  obtain ⟨before, sec, after, j, split, bound, last⟩ :=
    page_owner (by omega : pageCount (secs.filter Section.loadable) - 1 < pageCount (secs.filter Section.loadable))
  have one := single sec (by rw [split]; exact List.mem_append_right _ (List.mem_cons_self ..))
  obtain ⟨before', info, after', rfl, _, count, pages, _⟩ := placed.section_at split
  have here : sectionPage (infoCount before') (info.addr / 4096) j ∈ layout (before' ++ info :: after') stackBase := by
    refine List.mem_append_left _ (List.mem_reverse.mpr ?_)
    rw [imageLayout_append, Nat.zero_add]
    refine List.mem_append_right _ (List.mem_append_left _ (List.mem_map_of_mem ?_))
    exact List.mem_range'_1.mpr ⟨Nat.zero_le j, by omega⟩
  have low := placed.low _ here
  simp only [sectionPage] at low
  omega

theorem created_first {s s' : Sched} {typ : ProcType} {id frame priority : Nat}
    (listed : typ = .normal ∧ createNormal s frame priority = some s' ∨ typ = .driver ∧ createDriver s frame = some s')
    (queue : s'.queue typ = s.queue typ ++ [id]) : (firstFree fun i => (s.slot typ i).present) = some id := by
  rcases listed with ⟨rfl, run⟩ | ⟨rfl, run⟩
  all_goals
    obtain ⟨first, found, rfl⟩ := Option.map_eq_some_iff.mp run
    cases List.append_cancel_left queue
    exact found

end

end Kernel

namespace Initprt
open Kernel (Reach)

/-- A process that was made from the bytes of a file. As long as no section is longer
than a page, it finds them in its address space. -/
structure Runs (parser : List UInt8 → Option ExecHeader) (k : Kernel) (typ : ProcType) (id root : Nat) (file : List UInt8)
    (header : ExecHeader) : Prop where
  parsed : parser file = some header
  bound : id < maxPs
  slot : k.sched.slot typ id = Slot.initial typ (root * 4096)
  laid : (∀ sec ∈ header.sections, sec.loadable = true → sec.size ≤ 4096) →
    0x200 + pageCount (header.sections.filter Section.loadable) ≤ 2 ^ 35 ∧
      ImageLaid k.mem root file (header.sections.filter Section.loadable)

/-- The processes of each kind that have been started from `start`, in this order. -/
structure Started (mapper : PageMapper) (modes : ExecMode) (parser : List UInt8 → Option ExecHeader) (start k : Kernel)
    (R : Set Nat) (files : ProcType → List (List UInt8)) : Prop where
  valid : k.Valid R
  reach : ∃ tables, Reach mapper (parse modes parser) start k tables
  queue : ∀ typ, k.sched.queue typ = List.range (files typ).length
  made : ∀ typ i file, (files typ)[i]? = some file → ∃ root ∈ R, ∃ header, Runs parser k typ i root file header
  absent : ∀ typ i, (files typ).length ≤ i → (k.sched.slot typ i).present = false

section
variable {mapper : PageMapper} {modes : ExecMode} {parser : List UInt8 → Option ExecHeader} {start k k' : Kernel}
  {R : Set Nat} {files : ProcType → List (List UInt8)} {typ : ProcType}

theorem Started.boot {map : MemoryMap} (boot : start.Boot map) : Started mapper modes parser start start ∅ fun _ => [] where
  valid := boot.valid
  reach := ⟨∅, .boot⟩
  queue typ := by
    rw [boot.sched]
    cases typ <;> rfl
  made _ _ _ listed := nomatch listed
  absent typ _ _ := by
    rw [boot.sched]
    cases typ <;> rfl

/-- The next process gets the number that follows. -/
theorem Started.next_id (started : Started mapper modes parser start k R files) {id : Nat}
    (found : (firstFree fun i => (k.sched.slot typ i).present) = some id) : id = (files typ).length := by
  obtain ⟨_, free, earlier⟩ := firstSlot_some found
  simp only [Bool.not_eq_true'] at free
  have lower : (files typ).length ≤ id := by
    by_contra inside
    obtain ⟨_, _, header, runs⟩ := started.made typ id _ (List.getElem?_eq_getElem (by omega))
    rw [runs.slot] at free
    cases free
  by_contra apart
  have present := earlier (files typ).length (by omega)
  dsimp only at present
  rw [started.absent typ _ (Nat.le_refl _)] at present
  cases present

theorem Runs.kept {typ' : ProcType} {id id' root frame : Nat} {file : List UInt8} {header : ExecHeader}
    (runs : Runs parser k typ id root file header) (created : Created k.sched k'.sched typ' id' frame)
    (apart : ¬(typ = typ' ∧ id = id')) (keeps : Kernel.Keeps k k' root) : Runs parser k' typ id root file header where
  parsed := runs.parsed
  bound := runs.bound
  slot := (created.others typ id apart).trans runs.slot
  laid small := ⟨(runs.laid small).1, (runs.laid small).2.kept keeps (runs.laid small).1⟩

theorem Runs.spawned {id root stackBase : Nat} {infos : List SectionData} {file : List UInt8} {header : ExecHeader}
    (parsed : parser file = some header) (created : Created k.sched k'.sched typ id (root * 4096))
    (placed : Kernel.Placed file header.sections k'.mem root infos stackBase) : Runs parser k' typ id root file header where
  parsed := parsed
  bound := created.bound
  slot := created.slot
  laid small := by
    have single (sec : Section) (member : sec ∈ header.sections.filter Section.loadable) : sec.pages ≤ 1 := by
      obtain ⟨member, loadable⟩ := List.mem_filter.mp member
      exact (pages_le_one_iff sec).mpr (small sec member loadable)
    exact ⟨placed.low_image single, placed.laid single⟩

theorem queue_of_ne {s s' : Sched} {typ typ' : ProcType} {id frame : Nat} (created : Created s s' typ id frame)
    (apart : typ' ≠ typ) : s'.queue typ' = s.queue typ' := by
  have other : typ' = typ.other := by cases typ' <;> cases typ <;> first | rfl | exact absurd rfl apart
  rw [other, created.otherQueue]

/-- One more process: those before it stay as they are. -/
theorem Started.create {file : List UInt8} {header : ExecHeader} (started : Started mapper modes parser start k R files)
    (parsed : parser file = some header) (kind : (header.image modes).procType = typ)
    (run : Kernel.create mapper (parse modes parser) file 0 k = some (.ok (), k')) :
    ∃ R', Started mapper modes parser start k' R' (Function.update files typ (files typ ++ [file])) := by
  have known : parse modes parser file = some (header.image modes) := by
    rw [parse, parsed]
    rfl
  obtain ⟨_, root, id, infos, stackBase, same, spawned⟩ :=
    (Kernel.create_wp mapper (parse modes parser) file 0 started.valid.stage).ok run
  cases Option.some.inj (known.symm.trans same)
  obtain ⟨_, root', same', listed⟩ := (Kernel.create_sched mapper (parse modes parser) file 0 started.valid.stage).ok run
  cases Option.some.inj (known.symm.trans same')
  obtain ⟨tables, reach⟩ := started.reach
  have created := spawned.created
  rw [kind] at created listed
  have number := started.next_id (Kernel.created_first listed created.queue)
  have kept {typ' : ProcType} {i : Nat} {other : List UInt8} (before : (files typ')[i]? = some other)
      (apart : ¬(typ' = typ ∧ i = id)) : ∃ r ∈ insert root R, ∃ header, Runs parser k' typ' i r other header := by
    obtain ⟨r, member, header', runs⟩ := started.made typ' i other before
    exact ⟨r, Or.inr member, header', runs.kept created apart (Kernel.create_keeps started.valid member run)⟩
  have step : k.step mapper (parse modes parser) (.create file 0) = some k' := congrArg (Option.map Prod.snd) run
  refine ⟨insert root R, spawned.valid started.valid, ⟨_, reach.next (by exact trivial) step⟩, fun typ' => ?_,
    fun typ' i other place => ?_, fun typ' i beyond => ?_⟩
  · by_cases here : typ' = typ
    · subst here
      rw [Function.update_self, created.queue, started.queue, number, List.length_append, List.length_singleton,
        List.range_succ]
    · rw [Function.update_of_ne here, queue_of_ne created here, started.queue]
  · by_cases here : typ' = typ
    · subst here
      rw [Function.update_self] at place
      rcases Nat.lt_or_ge i (files typ').length with earlier | later
      · rw [List.getElem?_append_left earlier] at place
        exact kept place fun both => by omega
      · rw [List.getElem?_append_right later, List.getElem?_singleton] at place
        obtain ⟨last, found⟩ := Option.ite_none_right_eq_some.mp place
        cases Option.some.inj found
        obtain rfl : i = id := by omega
        exact ⟨root, Set.mem_insert root R, header, .spawned parsed created spawned.placed⟩
    · rw [Function.update_of_ne here] at place
      exact kept place fun both => here both.1
  · by_cases here : typ' = typ
    · subst here
      rw [Function.update_self, List.length_append, List.length_singleton] at beyond
      rw [created.others typ' i fun both => by omega]
      exact started.absent typ' i (by omega)
    · rw [Function.update_of_ne here] at beyond
      rw [created.others typ' i fun both => here both.1]
      exact started.absent typ' i beyond

theorem Started.run {dir : FatDir} {mode : Nat} {name : String} (started : Started mapper modes parser start k R files)
    (kind : ∀ header : ExecHeader, header.mode = mode → (header.image modes).procType = typ)
    (ran : run mapper modes parser dir mode k name = some k') :
    ∃ file R', load dir name = some file ∧
      Started mapper modes parser start k' R' (Function.update files typ (files typ ++ [file])) := by
  obtain ⟨file, loaded, ran⟩ := Option.bind_eq_some_iff.mp ran
  obtain ⟨header, parsed, ran⟩ := Option.bind_eq_some_iff.mp ran
  split at ran
  · cases ran
  · rename_i right
    split at ran
    · rename_i created
      cases ran
      obtain ⟨R', after⟩ := started.create parsed (kind header (not_not.mp right)) created
      exact ⟨file, R', loaded, after⟩
    · cases ran

theorem Started.runAll {dir : FatDir} {mode : Nat} {names : List String}
    (started : Started mapper modes parser start k R files)
    (kind : ∀ header : ExecHeader, header.mode = mode → (header.image modes).procType = typ)
    (ran : names.foldlM (Initprt.run mapper modes parser dir mode) k = some k') :
    ∃ loaded R', List.Forall₂ (fun name file => load dir name = some file) names loaded ∧
      Started mapper modes parser start k' R' (Function.update files typ (files typ ++ loaded)) := by
  induction names generalizing k R files with
  | nil =>
    cases ran
    refine ⟨[], R, .nil, ?_⟩
    rw [List.append_nil, Function.update_eq_self]
    exact started
  | cons name names ih =>
    rw [List.foldlM_cons] at ran
    obtain ⟨k1, first, rest⟩ := Option.bind_eq_some_iff.mp ran
    obtain ⟨file, R1, here, started1⟩ := started.run kind first
    obtain ⟨loaded, R2, others, started2⟩ := ih started1 rest
    rw [Function.update_idem, Function.update_self, List.append_assoc] at started2
    exact ⟨file :: loaded, R2, .cons here others, started2⟩

end

theorem procType_userApp {modes : ExecMode} (apart : ExecMode.contains modes.userApp modes.coreDrv = false)
    (header : ExecHeader) (mode : header.mode = modes.userApp) : (header.image modes).procType = .normal := by
  rw [Image.procType, ExecHeader.image, mode, apart]
  rfl

theorem procType_coreDrv {modes : ExecMode} (header : ExecHeader) (mode : header.mode = modes.coreDrv) :
    (header.image modes).procType = .driver := by
  have itself : ExecMode.contains modes.coreDrv modes.coreDrv = true := by
    rw [ExecMode.contains, Nat.and_self, beq_self_eq_true]
  rw [Image.procType, ExecHeader.image, mode, itself]
  rfl

/-- `initprt::init` starts what the partition lists. If it returns, the file `init` is
process 0 and the files of the driver list are the drivers 0, 1, … in its order;
all wait in their queues, no two of them on the same table. Those whose sections
have at most a page each find the bytes of their files where the sections lie. -/
theorem init_starts_listed (mapper : PageMapper) (modes : ExecMode) (parser : List UInt8 → Option ExecHeader)
    (toml : List UInt8 → Option (List String)) {map : MemoryMap} {start k : Kernel} {fs : Option FatFs}
    (boot : start.Boot map) (apart : ExecMode.contains modes.userApp modes.coreDrv = false)
    (run : init mapper modes parser toml fs start = some k) :
    ∃ disk drivers content names file files tables, fs = some disk ∧ load disk.rootDir "init" = some file ∧
      disk.openDirPath "drivers" = some drivers ∧ load drivers "list.toml" = some content ∧ toml content = some names ∧
      List.Forall₂ (fun name file => load drivers name = some file) names files ∧
      Reach mapper (parse modes parser) start k tables ∧ k.sched.queue .normal = [0] ∧
      k.sched.queue .driver = List.range names.length ∧ names.length ≤ maxPs ∧
      (∀ typ i typ' i', (k.sched.slot typ i).present = true →
        (k.sched.slot typ i).tableAddr = (k.sched.slot typ' i').tableAddr → typ = typ' ∧ i = i') ∧
      (∃ root header, Runs parser k .normal 0 root file header) ∧
      ∀ i file, files[i]? = some file → ∃ root header, Runs parser k .driver i root file header := by
  obtain ⟨disk, rfl, run⟩ := Option.bind_eq_some_iff.mp run
  obtain ⟨k1, first, run⟩ := Option.bind_eq_some_iff.mp run
  obtain ⟨drivers, opened, run⟩ := Option.bind_eq_some_iff.mp run
  obtain ⟨content, read, run⟩ := Option.bind_eq_some_iff.mp run
  obtain ⟨names, list, run⟩ := Option.bind_eq_some_iff.mp run
  obtain ⟨file, R1, loaded, started1⟩ := (Started.boot boot).run (procType_userApp apart) first
  have rest : names.foldlM (Initprt.run mapper modes parser drivers modes.coreDrv) k1 = some k := by
    split at run
    · rename_i empty
      rw [List.isEmpty_iff.mp empty]
      exact run
    · exact run
  obtain ⟨files, R2, others, started⟩ := started1.runAll procType_coreDrv rest
  obtain ⟨tables, reach⟩ := started.reach
  have count := others.length_eq
  have made (i : Nat) (file : List UInt8) (place : files[i]? = some file) :
      ∃ root header, Runs parser k .driver i root file header := by
    obtain ⟨root, _, header, runs⟩ := started.made .driver i file place
    exact ⟨root, header, runs⟩
  refine ⟨disk, drivers, content, names, file, files, tables, rfl, loaded, opened, read, list, others, reach,
    started.queue .normal, ?_, ?_, fun typ i typ' i' present => ?_, ?_, made⟩
  · rw [count]
    exact started.queue .driver
  · by_contra many
    obtain ⟨_, header, runs⟩ := made (names.length - 1) _ (List.getElem?_eq_getElem (by omega))
    have bound := runs.bound
    omega
  · exact started.valid.slots.distinct typ i typ' i' (started.valid.slots.present typ i present)
  · obtain ⟨root, _, header, runs⟩ := started.made .normal 0 file rfl
    exact ⟨root, header, runs⟩

/-- A partition on which every file is one of these two, with two drivers in its list. -/
def smallDisk : FatFs where
  rootDir := ⟨fun _ => some ⟨1, some [0x90], by decide⟩⟩
  openDirPath _ := some ⟨fun _ => some ⟨2, some [1, 0x90], by decide⟩⟩

def smallParser (data : List UInt8) : Option ExecHeader :=
  some ⟨if data.head? == some 1 then 2 else 1, true, [⟨0, data.length, true, true⟩]⟩

theorem init_starts_two_drivers :
    ∃ k, init FourLevel.mapper ⟨1, 2⟩ smallParser (fun _ => some ["first", "second"]) (some smallDisk) smallKernel = some k ∧
      k.sched.queue .normal = [0] ∧ k.sched.queue .driver = [0, 1] := by
  have run : (init FourLevel.mapper ⟨1, 2⟩ smallParser (fun _ => some ["first", "second"]) (some smallDisk)
      smallKernel).isSome = true := by
    decide +kernel
  obtain ⟨k, out⟩ := Option.isSome_iff_exists.mp run
  obtain ⟨_, _, _, names, _, _, _, _, _, _, _, list, _, _, normal, driver, _⟩ :=
    init_starts_listed FourLevel.mapper ⟨1, 2⟩ smallParser (fun _ => some ["first", "second"]) smallKernel_boot rfl out
  cases Option.some.inj list
  exact ⟨k, out, normal, driver⟩

end Initprt

end ProkaKernel
