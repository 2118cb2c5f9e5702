import ProkaKernel.TaskTables

namespace ProkaKernel.World

/-- The slot holds registers of task `x`, or its page table to be resumed on. -/
def Recalls (w : World) (typ : ProcType) (id : Nat) (x : Task) : Prop :=
  w.owner typ id = some x ∨ (w.sched.slot typ id).resumeTable = w.table x

/-- A tick loads neither registers nor a page table of a removed task. -/
def Forgets (w : World) (regs : Context) (cr3 : Nat) : Prop :=
  ∀ x ∈ w.gone,
    (∀ s' context table, switchTask w.sched (.interrupting regs cr3) = .loaded s' context table →
      w.owner w.sched.next s'.currentId ≠ some x ∧ table ≠ w.table x) ∧
    ∀ s' table, switchTask w.sched (.interrupting regs cr3) = .returned s' table → table ≠ w.table x

/-- A tick that switches saves nothing of a removed task into the slot of a
process, a tick that restores a table does not take it from the slot of a
removed process, and nobody is removed while another process's slot holds
something of theirs. Creations get fresh tables. -/
def Discards (w : World) : Event → Prop
  | .tick _ cr3 =>
    (w.sched.queue w.sched.next ≠ [] → w.sched.currentId ∈ w.sched.queue w.sched.next.other →
      ∀ x ∈ w.gone, w.running ≠ some x ∧ (w.sched.next.other = .normal → cr3 ≠ w.table x)) ∧
    (w.sched.queue w.sched.next = [] → w.sched.queue w.sched.next.other ≠ [] →
      w.sched.currentId ∈ w.sched.queue w.sched.next.other ∨
        (w.sched.slot w.sched.next.other w.sched.currentId).tableAddr = 0)
  | .remove typ index => index ∈ w.sched.queue typ → ∀ typ', ∀ id ∈ w.sched.queue typ',
      ¬(typ' = typ ∧ id = index) → ¬w.Recalls typ' id (w.taskAt typ index)
  | event => w.FreshTables event

theorem Discards.fresh {w : World} {event : Event} (discards : w.Discards event) : w.FreshTables event := by
  cases event with
  | createNormal frame priority => exact discards
  | createDriver frame => exact discards
  | _ => trivial

/-- The removed tasks are not among the processes, and they are all the tasks
whose slot was used and is free. -/
structure Retired (w : World) : Prop where
  absent : ∀ x ∈ w.gone, x.birth < w.clock ∧ ¬w.Holds x
  used : ∀ typ id, (w.sched.slot typ id).present = false → (w.sched.slot typ id).tableAddr ≠ 0 →
    w.taskAt typ id ∈ w.gone

theorem Retired.congr {w w' : World} (retired : w.Retired) (gone : w'.gone = w.gone) (clock : w'.clock = w.clock)
    (births : w'.births = w.births)
    (present : ∀ typ id, (w'.sched.slot typ id).present = (w.sched.slot typ id).present)
    (table : ∀ typ id, (w'.sched.slot typ id).tableAddr = (w.sched.slot typ id).tableAddr) : w'.Retired where
  absent x member := by
    obtain ⟨birth, absent⟩ := retired.absent x (gone ▸ member)
    exact ⟨clock ▸ birth, fun holds => absent (holds.of_present births (present _ _))⟩
  used typ id free nonzero := by
    rw [present] at free
    rw [table] at nonzero
    rw [gone, taskAt, births]
    exact retired.used typ id free nonzero

theorem Retired.boot : Retired {} where
  absent x member := absurd member List.not_mem_nil
  used typ id _ nonzero := by cases typ <;> exact absurd rfl nonzero

theorem Retired.born {w : World} {s' : Sched} {typ : ProcType} {id frame : Nat} (retired : w.Retired)
    (created : Created w.sched s' typ id frame) : (w.born s' typ id frame).Retired where
  absent x member := by
    obtain ⟨birth, absent⟩ := retired.absent x member
    refine ⟨Nat.lt_succ_of_lt birth, fun holds => ?_⟩
    rcases born_holds created holds with rfl | ⟨_, old⟩
    · exact Nat.lt_irrefl _ birth
    · exact absent old
  used typ' id' free nonzero := by
    change (s'.slot typ' id').present = false at free
    change (s'.slot typ' id').tableAddr ≠ 0 at nonzero
    by_cases here : typ' = typ ∧ id' = id
    · obtain ⟨rfl, rfl⟩ := here
      rw [created.slot] at free
      cases free
    · rw [created.others _ _ here] at free nonzero
      have old : (w.born s' typ id frame).taskAt typ' id' = w.taskAt typ' id' := by
        simp only [taskAt, World.born, setAt_of_ne _ _ here]
      rw [old]
      exact retired.used typ' id' free nonzero

theorem Retired.removed {w : World} {s' : Sched} {typ : ProcType} {index : Nat} (retired : w.Retired)
    (sound : w.Sound) (removed : Removed w.sched s' typ index) :
    Retired { w with sched := s', gone := w.taskAt typ index :: w.gone } where
  absent x member := by
    rcases List.mem_cons.mp member with rfl | old
    · exact ⟨sound.births _ ⟨removed.bound, removed.present, rfl⟩,
        fun holds => (removed_holds removed holds).1 ⟨rfl, rfl⟩⟩
    · exact ⟨(retired.absent x old).1, fun holds => (retired.absent x old).2 (removed_holds removed holds).2⟩
  used typ' id' free nonzero := by
    by_cases here : typ' = typ ∧ id' = index
    · obtain ⟨rfl, rfl⟩ := here
      exact List.mem_cons_self ..
    · change (s'.slot typ' id').present = false at free
      change (s'.slot typ' id').tableAddr ≠ 0 at nonzero
      rw [removed.others _ _ here] at free nonzero
      exact List.mem_cons_of_mem _ (retired.used typ' id' free nonzero)

theorem Retired.step {w w' : World} {event : Event} (retired : w.Retired) (sound : w.Sound)
    (run : w.step event = some w') : w'.Retired := by
  rcases step_cases sound.mirrors run with ⟨typ, s', id, frame, _, created, rfl⟩ |
    ⟨typ, index, s', _, removed, rfl⟩ | ⟨_, _, _, _, rfl⟩ | ⟨regs, cr3, _, idles, rfl⟩ |
    ⟨regs, cr3, s', _, stays, rfl⟩ | ⟨regs, cr3, s', id, _, switched, rfl⟩
  · exact retired.born created
  · exact retired.removed sound removed
  · exact retired
  · exact retired.congr rfl rfl rfl (fun _ _ => rfl) (fun _ _ => rfl)
  · have slots (typ : ProcType) (id : Nat) : s'.slot typ id = w.sched.slot typ id := by rw [stays.slots]
    exact retired.congr rfl rfl rfl (fun typ id => congrArg Slot.present (slots typ id))
      (fun typ id => congrArg Slot.tableAddr (slots typ id))
  · exact retired.congr rfl rfl rfl switched.slot_present switched.slot_tableAddr

theorem Reach.retired {allow : World → Event → Prop} {w : World} (reach : Reach allow w) : w.Retired := by
  induction reach with
  | boot => exact Retired.boot
  | next before _ run ih => exact ih.step before.sound run

/-- A process never has the table of a removed one. -/
theorem Tables.table_ne_gone {w : World} (tables : w.Tables) (retired : w.Retired) {t x : Task}
    (holds : w.Holds t) (member : x ∈ w.gone) : w.table t ≠ w.table x := by
  intro same
  have nonzero := tables.present _ _ holds.2.1
  rw [tables.holds holds] at nonzero
  exact (retired.absent x member).2 (tables.distinct t x same nonzero ▸ holds)

/-- No slot of a process holds registers or the table of a removed task. -/
def Clean (w : World) : Prop :=
  ∀ x ∈ w.gone, ∀ typ, ∀ id ∈ w.sched.queue typ, ¬w.Recalls typ id x

theorem Clean.born {w : World} {s' : Sched} {typ : ProcType} {id frame : Nat} (clean : w.Clean)
    (retired : w.Retired) (fresh : w.Fresh frame) (created : Created w.sched s' typ id frame) :
    (w.born s' typ id frame).Clean := by
  intro x member typ' id' queued
  have old : x ≠ ⟨typ, id, w.clock⟩ := fun new => Nat.lt_irrefl _ (new ▸ (retired.absent x member).1)
  have table : (w.born s' typ id frame).table x = w.table x := by
    simp only [World.born, Function.update_of_ne old]
  rw [Recalls, table]
  by_cases here : typ' = typ ∧ id' = id
  · obtain ⟨rfl, rfl⟩ := here
    simp only [World.born, setAt_self, created.slot, Slot.initial]
    rintro (same | same)
    · exact old (Option.some.inj same).symm
    · exact fresh.2.2 x same.symm
  · simp only [World.born, setAt_of_ne _ _ here, created.others _ _ here]
    refine clean x member typ' id' ?_
    change id' ∈ s'.queue typ' at queued
    rcases typ.eq_or_other typ' with rfl | rfl
    · rw [created.queue, List.mem_append, List.mem_singleton] at queued
      exact queued.resolve_right fun same => here ⟨rfl, same⟩
    · rwa [created.otherQueue] at queued

theorem removed_mem_queue {s s' : Sched} {typ : ProcType} {index : Nat} (removed : Removed s s' typ index)
    (typ' : ProcType) (id : Nat) :
    id ∈ s'.queue typ' ↔ id ∈ s.queue typ' ∧ ¬(typ' = typ ∧ id = index) := by
  rcases typ.eq_or_other typ' with rfl | rfl
  · simp [removed.queue]
  · simp [removed.otherQueue, typ.other_ne]

theorem Clean.removed_iff {w : World} {s' : Sched} {typ : ProcType} {index : Nat} (clean : w.Clean)
    (mirrors : Mirrors w.sched) (removed : Removed w.sched s' typ index) :
    Clean { w with sched := s', gone := w.taskAt typ index :: w.gone } ↔ w.Discards (.remove typ index) := by
  have queued := (mirrors.mem typ index).mpr ⟨removed.bound, removed.present⟩
  have same (typ' : ProcType) (id : Nat) (x : Task) (apart : ¬(typ' = typ ∧ id = index)) :
      Recalls { w with sched := s', gone := w.taskAt typ index :: w.gone } typ' id x ↔ w.Recalls typ' id x := by
    simp only [Recalls, removed.others _ _ apart]
  constructor
  · intro cleaned _ typ' id member apart
    rw [← same typ' id _ apart]
    exact cleaned _ (List.mem_cons_self ..) typ' id ((removed_mem_queue removed typ' id).mpr ⟨member, apart⟩)
  · intro discards x gone typ' id member
    obtain ⟨member, apart⟩ := (removed_mem_queue removed typ' id).mp member
    rw [same typ' id x apart]
    rcases List.mem_cons.mp gone with rfl | old
    · exact discards queued typ' id member apart
    · exact clean x old typ' id member

/-- A switch leaves the slots clean just when what it saves into the slot of a
process is not a removed task's. -/
theorem Clean.turned_iff {w : World} {s' : Sched} {regs : Context} {cr3 id table : Nat} (clean : w.Clean)
    (switched : Switched w.sched s' (.interrupting regs cr3) id) :
    ((w.interrupted regs cr3).turned s' table id).Clean ↔ w.Discards (.tick regs cr3) := by
  have hit (x : Task) : ((w.interrupted regs cr3).turned s' table id).Recalls w.sched.next.other w.sched.currentId x ↔
      w.running = some x ∨ (if w.sched.next.other = .normal then cr3
        else (w.sched.slot w.sched.next.other w.sched.currentId).resumeTable) = w.table x := by
    simp only [Recalls, turned, interrupted, setAt_self, switched.slots, and_self, if_true, Slot.saving,
      Trap.interrupting_cr3]
  have aside (typ : ProcType) (j : Nat) (x : Task) (apart : ¬(typ = w.sched.next.other ∧ j = w.sched.currentId)) :
      ((w.interrupted regs cr3).turned s' table id).Recalls typ j x ↔ w.Recalls typ j x := by
    simp only [Recalls, turned, interrupted, setAt_of_ne _ _ apart, switched.slots, apart, if_false]
  constructor
  · refine fun cleaned => ⟨fun _ member x gone => ?_, fun empty => absurd empty switched.busy⟩
    have saved := cleaned x gone _ _ ((switched.queue_perm _).mem_iff.mpr member)
    rw [hit, not_or] at saved
    exact ⟨saved.1, fun normal => by simpa only [normal, if_true] using saved.2⟩
  · intro discards x gone typ j member
    replace member := (switched.queue_perm typ).mem_iff.mp member
    by_cases here : typ = w.sched.next.other ∧ j = w.sched.currentId
    · obtain ⟨rfl, rfl⟩ := here
      obtain ⟨running, saved⟩ := discards.1 switched.busy member x gone
      rw [hit, not_or]
      refine ⟨running, ?_⟩
      split
      · rename_i normal
        exact saved normal
      · exact fun same => clean x gone _ _ member (Or.inr same)
    · rw [aside typ j x here]
      exact clean x gone typ j member

theorem forgets_returned_iff {w : World} {s' : Sched} {regs : Context} {cr3 table : Nat}
    (out : switchTask w.sched (.interrupting regs cr3) = .returned s' table) :
    w.Forgets regs cr3 ↔ ∀ x ∈ w.gone, table ≠ w.table x := by
  constructor
  · exact fun forgets x gone => (forgets x gone).2 s' table out
  · refine fun apart x gone => ⟨fun _ _ _ load => ?_, fun _ _ back => ?_⟩
    · rw [out] at load
      cases load
    · rw [out] at back
      cases back
      exact apart x gone

/-- What a switch loads is what the slot of a process holds. -/
theorem Clean.forgets_loaded {w : World} {s' : Sched} {regs : Context} {cr3 id : Nat} (clean : w.Clean)
    (switched : Switched w.sched s' (.interrupting regs cr3) id)
    (out : switchTask w.sched (.interrupting regs cr3) =
      .loaded s' (w.sched.slot w.sched.next id).context (w.sched.slot w.sched.next id).resumeTable) :
    w.Forgets regs cr3 := by
  refine fun x gone => ⟨fun _ _ _ load => ?_, fun _ _ back => ?_⟩
  · rw [out] at load
    cases load
    rw [switched.currentId]
    exact not_or.mp (clean x gone _ id switched.mem)
  · rw [out] at back
    cases back

/-- A tick that only restores a table forgets the removed tasks just when the
slot it restores from is that of a process or was never used. -/
theorem forgets_stays_iff {w : World} {s' : Sched} {regs : Context} {cr3 : Nat} (sound : w.Sound)
    (tables : w.Tables) (retired : w.Retired) (stays : Stays w.sched s')
    (out : switchTask w.sched (.interrupting regs cr3) = .returned s'
      (if (w.sched.slot w.sched.next.other w.sched.currentId).tableAddr = 0 then kernelPml4
        else (w.sched.slot w.sched.next.other w.sched.currentId).tableAddr)) :
    w.Forgets regs cr3 ↔ w.Discards (.tick regs cr3) := by
  have queued := sound.mirrors.mem w.sched.next.other w.sched.currentId
  rw [forgets_returned_iff out]
  constructor
  · refine fun apart => ⟨fun busy => absurd stays.empty busy, fun _ _ => ?_⟩
    by_contra neither
    rw [not_or] at neither
    have free : (w.sched.slot w.sched.next.other w.sched.currentId).present = false := by
      rw [← Bool.not_eq_true]
      exact fun present => neither.1 (queued.mpr ⟨sound.mirrors.current, present⟩)
    refine apart _ (retired.used _ _ free neither.2) ?_
    rw [if_neg neither.2]
    exact (tables.slots _ _).resolve_left neither.2
  · intro discards x gone
    split
    · exact (tables.kernel x).symm
    · rename_i nonzero
      obtain ⟨bound, present⟩ := queued.mp ((discards.2 stays.empty stays.work).resolve_right nonzero)
      rw [tables.slot_present present]
      exact tables.table_ne_gone retired ⟨bound, present, rfl⟩ gone

theorem Clean.forgets {w : World} {regs : Context} {cr3 : Nat} (clean : w.Clean) (sound : w.Sound)
    (tables : w.Tables) (retired : w.Retired) (discards : w.Discards (.tick regs cr3)) :
    w.Forgets regs cr3 := by
  rcases sound.mirrors.switchTask_cases (.interrupting regs cr3) with
    ⟨_, out⟩ | ⟨s', stays, out⟩ | ⟨s', id, switched, out⟩
  · exact (forgets_returned_iff out).mpr fun x _ => (tables.kernel x).symm
  · exact (forgets_stays_iff sound tables retired stays out).mpr discards
  · exact clean.forgets_loaded switched out

theorem Clean.step {w w' : World} {event : Event} (clean : w.Clean) (sound : w.Sound) (retired : w.Retired)
    (discards : w.Discards event) (run : w.step event = some w') : w'.Clean := by
  rcases step_cases sound.mirrors run with ⟨typ, s', id, frame, creates, created, rfl⟩ |
    ⟨typ, index, s', rfl, removed, rfl⟩ | ⟨_, _, _, _, rfl⟩ | ⟨regs, cr3, _, idles, rfl⟩ |
    ⟨regs, cr3, s', _, stays, rfl⟩ | ⟨regs, cr3, s', id, rfl, switched, rfl⟩
  · exact clean.born retired (creates.fresh discards.fresh) created
  · exact (clean.removed_iff sound.mirrors removed).mpr discards
  · exact clean
  · exact clean
  · intro x gone typ id queued
    change id ∈ s'.queue typ at queued
    rw [stays.queues] at queued
    change ¬(w.owner typ id = some x ∨ (s'.slot typ id).resumeTable = w.table x)
    rw [stays.slots]
    exact clean x gone typ id queued
  · exact (clean.turned_iff switched).mpr discards

/-- The condition is exact for every step: from a clean state, any other
removal or tick leaves something of a removed task in the slot of a process,
or loads its page table at once. -/
theorem Clean.discards {w w' : World} {event : Event} (clean : w.Clean) (sound : w.Sound)
    (tables : w.Tables) (retired : w.Retired) (fresh : w.FreshTables event) (run : w.step event = some w')
    (cleaned : w'.Clean) (forgets : ∀ regs cr3, event = .tick regs cr3 → w.Forgets regs cr3) :
    w.Discards event := by
  cases event with
  | createNormal frame priority => exact fresh
  | createDriver frame => exact fresh
  | remove typ index =>
    rcases step_cases sound.mirrors run with ⟨_, _, _, _, creates, _⟩ | ⟨_, _, s', same, removed, rfl⟩ |
      ⟨_, _, same, absent, _⟩ | ⟨_, _, other, _⟩ | ⟨_, _, _, other, _⟩ | ⟨_, _, _, _, other, _⟩
    · rcases creates with ⟨_, _, other⟩ | ⟨_, other⟩ <;> cases other
    · cases same
      exact (clean.removed_iff sound.mirrors removed).mp cleaned
    · cases same
      exact fun queued => absurd queued absent
    all_goals cases other
  | tick regs cr3 =>
    rcases sound.mirrors.switchTask_cases (.interrupting regs cr3) with
      ⟨idles, _⟩ | ⟨s', stays, out⟩ | ⟨s', id, switched, out⟩
    · exact ⟨fun busy => absurd (idles.queue _) busy, fun _ busy => absurd (idles.queue _) busy⟩
    · exact (forgets_stays_iff sound tables retired stays out).mp (forgets regs cr3 rfl)
    · rw [World.step, out] at run
      cases run
      rw [switched.currentId] at cleaned
      exact (clean.turned_iff switched).mp cleaned

theorem Reach.clean {w : World} (reach : Reach Discards w) : w.Clean := by
  induction reach with
  | boot => exact fun x gone => absurd gone List.not_mem_nil
  | next before discards run ih => exact ih.step before.sound before.retired discards run

/-- In every run whose steps all discard what belongs to removed tasks, no tick
loads registers or a page table of one. -/
theorem removed_never_resumed {w : World} {regs : Context} {cr3 : Nat} (reach : Reach Discards w)
    (discards : w.Discards (.tick regs cr3)) : w.Forgets regs cr3 :=
  reach.clean.forgets reach.sound (reach.tables fun _ _ => Discards.fresh) reach.retired discards

/-- Two normal processes, of which the one that is not running is removed: the
next tick resumes the other one. -/
theorem removed_not_resumed_beside_running :
    ∃ w, World.run {} [.createNormal 0x2000000 0, .createNormal 0x2001000 0, .tick {} kernelPml4,
        .tick {} 0x2000000, .remove .normal 0] = some w ∧
      w.gone = [⟨.normal, 0, 0⟩] ∧ w.Forgets {} 0x2001000 := by
  have r1 : Reach Discards _ := .next .boot (by exact Fresh.boot (by decide) (by decide))
    (rfl : World.step {} (.createNormal 0x2000000 0) = some _)
  have r2 : Reach Discards _ := .next r1
    (by exact (Fresh.boot (by decide) (by decide)).born (by decide) ..)
    (rfl : World.step _ (.createNormal 0x2001000 0) = some _)
  have r3 : Reach Discards _ := .next r2
    (by exact ⟨fun _ _ _ gone => absurd gone List.not_mem_nil, fun empty => absurd empty (by decide)⟩)
    (rfl : World.step _ (.tick {} kernelPml4) = some _)
  have r4 : Reach Discards _ := .next r3
    (by exact ⟨fun _ _ _ gone => absurd gone List.not_mem_nil, fun empty => absurd empty (by decide)⟩)
    (rfl : World.step _ (.tick {} 0x2000000) = some _)
  have r5 : Reach Discards _ := .next r4
    (by
      intro _ typ id queued apart
      cases typ with
      | normal =>
        have second : id = 1 := by
          rcases List.mem_cons.mp queued with first | rest
          · exact absurd ⟨rfl, first⟩ apart
          · exact List.mem_singleton.mp rest
        subst second
        exact fun recalls => recalls.elim (by decide) (by decide)
      | driver => exact absurd queued List.not_mem_nil)
    (rfl : World.step _ (.remove .normal 0) = some _)
  exact ⟨_, rfl, rfl, removed_never_resumed r5
    ⟨fun _ queued => absurd queued (by decide), fun empty => absurd empty (by decide)⟩⟩

/-- The running process `A` is removed and its slot taken by `B`: the next tick
saves the registers of `A` into the slot of `B`, and the tick after that runs
them on the page table of `A`. -/
theorem removed_resumed_after_slot_reuse :
    ∃ w, World.run {} [.createNormal 0x2000000 0, .createDriver 0x2001000, .tick {} kernelPml4,
        .remove .normal 0, .createNormal 0x2002000 0, .tick { rax := 7 } 0x2000000] = some w ∧
      w.gone = [⟨.normal, 0, 0⟩] ∧ w.table ⟨.normal, 0, 0⟩ = 0x2000000 ∧
      (∃ s', switchTask w.sched (.interrupting {} 0x2001000) = .loaded s' { rax := 7 } 0x2000000) ∧
      ¬w.Forgets {} 0x2001000 := by
  refine ⟨_, rfl, rfl, rfl, ⟨_, rfl⟩, fun forgets => ?_⟩
  exact ((forgets ⟨.normal, 0, 0⟩ (by decide)).1 _ _ _ rfl).1 rfl

end ProkaKernel.World
