import Mathlib.Data.Set.Basic
import Mathlib.Logic.Function.Basic
import Mathlib.Logic.Relation

namespace Irq

/-- A guard of a lock, for writing if it is exclusive. The guards of a mutex all
are. -/
structure Guard (L : Type) where
  lock : L
  exclusive : Bool
  deriving DecidableEq

/-- The guards cannot be out at the same time. -/
def Guard.Conflicts {L : Type} (g g' : Guard L) : Prop := g.lock = g'.lock ∧ (g.exclusive = true ∨ g'.exclusive = true)

instance {L : Type} [DecidableEq L] (g g' : Guard L) : Decidable (g.Conflicts g') := inferInstanceAs (Decidable (_ ∧ _))

/-- What code does with locks and with the interrupt flag of its processor. -/
inductive Action (L : Type)
  | take (g : Guard L)
  | give (g : Guard L)
  | cli
  | sti

/-- Code on a processor: what is left of it, the guards that it holds, and whether
interrupts are off. -/
structure Code (L : Type) where
  rest : List (Action L)
  held : List (Guard L) := []
  masked : Bool := false

/-- One step of code while the guards in `others` are out. A lock spins as long as
a guard is out that conflicts, also one of the same code. -/
inductive Code.Step {L : Type} [DecidableEq L] (others : Set (Guard L)) : Code L → Code L → Prop
  | take {g rest held masked} : (∀ g' ∈ others, ¬g.Conflicts g') → (∀ g' ∈ held, ¬g.Conflicts g') →
      Step others ⟨.take g :: rest, held, masked⟩ ⟨rest, g :: held, masked⟩
  | give {g rest held masked} : g ∈ held → Step others ⟨.give g :: rest, held, masked⟩ ⟨rest, held.erase g, masked⟩
  | cli {rest held masked} : Step others ⟨.cli :: rest, held, masked⟩ ⟨rest, held, true⟩
  | sti {rest held masked} : Step others ⟨.sti :: rest, held, masked⟩ ⟨rest, held, false⟩

/-- Threads on one processor, with the interrupt handler that runs, if one does. -/
structure Machine (T L : Type) where
  threads : T → Code L
  current : T
  handler : Option (Code L) := none

section Model
variable {T L : Type}

/-- The guards that threads hold, and those that other threads than the current
one hold. -/
def Machine.guards (s : Machine T L) : Set (Guard L) := {g | ∃ t, g ∈ (s.threads t).held}
def Machine.others (s : Machine T L) : Set (Guard L) := {g | ∃ t, t ≠ s.current ∧ g ∈ (s.threads t).held}

theorem Machine.others_update [DecidableEq T] (s : Machine T L) (c : Code L) :
    Machine.others { s with threads := Function.update s.threads s.current c } = s.others := by
  ext g
  refine exists_congr fun t => and_congr_right fun other => ?_
  dsimp only
  rw [Function.update_of_ne other]

variable [DecidableEq T] [DecidableEq L] (calls ticks : Set (List (Action L)))

/-- One step. A thread that is not in a call can begin one. An interrupt comes
while interrupts are on, its handler runs with interrupts off until it comes to
its end, and then any thread goes on. -/
inductive Machine.Step (s : Machine T L) : Machine T L → Prop
  | runs {c} : s.handler = none → (s.threads s.current).Step s.others c →
      Step s { s with threads := Function.update s.threads s.current c }
  | calls {program} : s.handler = none → (s.threads s.current).rest = [] → program ∈ calls →
      Step s { s with threads := Function.update s.threads s.current { s.threads s.current with rest := program } }
  | tick {program} : s.handler = none → (s.threads s.current).masked = false → program ∈ ticks →
      Step s { s with handler := some ⟨program, [], true⟩ }
  | handles {h h'} : s.handler = some h → h.Step s.guards h' → Step s { s with handler := some h' }
  | leaves {h next} : s.handler = some h → h.rest = [] →
      Step s { s with
        handler := none
        current := next }

def Machine.Run : Machine T L → Machine T L → Prop := Relation.ReflTransGen (Machine.Step calls ticks)

end Model

/-- The code that runs is at its end or gets on. -/
def Machine.Advances {T L : Type} [DecidableEq L] (s : Machine T L) : Prop :=
  match s.handler with
  | some h => h.rest = [] ∨ ∃ h', h.Step s.guards h'
  | none => (s.threads s.current).rest = [] ∨ ∃ c, (s.threads s.current).Step s.others c

/-- The rule for code, which says what guards may be held with interrupts on, and
with interrupts off. All guards are given back at the end. -/
def obeys {L : Type} [DecidableEq L] (may : Guard L → Bool → Bool) : List (Action L) → List (Guard L) → Bool → Bool
  | [], held, masked => held.isEmpty && !masked
  | .take g :: rest, held, masked =>
    may g masked && held.all (fun g' => !decide (g.Conflicts g')) && obeys may rest (g :: held) masked
  | .give g :: rest, held, masked => held.contains g && obeys may rest (held.erase g) masked
  | .cli :: rest, held, _ => obeys may rest held true
  | .sti :: rest, held, _ => held.all (fun g => may g false) && obeys may rest held false

/-- A block under a guard, and one with interrupts off. -/
def guarded {L : Type} (g : Guard L) (body : List (Action L)) : List (Action L) := .take g :: (body ++ [.give g])
def masking {L : Type} (body : List (Action L)) : List (Action L) := .cli :: (body ++ [.sti])

section Blocks
variable {L : Type} [DecidableEq L] {may : Guard L → Bool → Bool} {gs : List (Guard L)} {masked : Bool} {g : Guard L}
  {body other : List (Action L)}

/-- With these guards the block keeps to the rule, and gives back what it takes. -/
def Nested (may : Guard L → Bool → Bool) (gs : List (Guard L)) (masked : Bool) (body : List (Action L)) : Prop :=
  ∀ rest, obeys may (body ++ rest) gs masked = obeys may rest gs masked

theorem nested_nil : Nested may gs masked [] := fun _ => rfl

theorem Nested.append (first : Nested may gs masked body) (second : Nested may gs masked other) :
    Nested may gs masked (body ++ other) := fun rest => by
  rw [List.append_assoc, first, second]

theorem Nested.guarded (inner : Nested may (g :: gs) masked body) (allowed : may g masked = true)
    (free : ∀ g' ∈ gs, ¬g.Conflicts g') : Nested may gs masked (guarded g body) := fun rest => by
  have apart : gs.all (fun g' => !decide (g.Conflicts g')) = true := by
    simp only [List.all_eq_true, Bool.not_eq_true', decide_eq_false_iff_not]
    exact free
  have back : obeys may (.give g :: rest) (g :: gs) masked = obeys may rest gs masked := by
    simp only [obeys, List.contains_cons, beq_self_eq_true, Bool.true_or, List.erase_cons_head, Bool.true_and]
  have split : Irq.guarded g body ++ rest = .take g :: (body ++ .give g :: rest) := by
    rw [Irq.guarded, List.cons_append, List.append_assoc, List.cons_append, List.nil_append]
  rw [split, obeys, inner, back, allowed, apart]
  rfl

theorem Nested.masking (inner : Nested may gs true body) (allowed : ∀ g ∈ gs, may g false = true) :
    Nested may gs false (masking body) := fun rest => by
  have split : Irq.masking body ++ rest = .cli :: (body ++ .sti :: rest) := by
    rw [Irq.masking, List.cons_append, List.append_assoc, List.cons_append, List.nil_append]
  rw [split, obeys, inner, obeys, List.all_eq_true.mpr allowed]
  rfl

theorem Nested.whole (nested : Nested may [] false body) : obeys may body [] false = true := by
  have all := nested []
  rw [List.append_nil] at all
  exact all

end Blocks

section Rule
variable {T L : Type} [DecidableEq L] {may : Guard L → Bool → Bool} {c c' : Code L} {others : Set (Guard L)}

/-- What may be held with interrupts on conflicts with nothing that may be taken. -/
def Peaceful (may : Guard L → Bool → Bool) : Prop :=
  ∀ g masked g', may g masked = true → may g' false = true → ¬g.Conflicts g'

/-- Code that keeps to the rule. -/
structure Code.Ok (may : Guard L → Bool → Bool) (c : Code L) : Prop where
  rule : obeys may c.rest c.held c.masked = true
  unmasked : c.masked = false → ∀ g ∈ c.held, may g false = true

theorem Code.Ok.step (ok : c.Ok may) (step : c.Step others c') : c'.Ok may := by
  obtain ⟨rule, unmasked⟩ := ok
  cases step with
  | take _ _ =>
    simp only [obeys, Bool.and_eq_true] at rule
    refine ⟨rule.2, fun off g' member => ?_⟩
    rcases List.mem_cons.mp member with rfl | member
    · exact off ▸ rule.1.1
    · exact unmasked off g' member
  | give _ =>
    simp only [obeys, Bool.and_eq_true] at rule
    exact ⟨rule.2, fun off g' member => unmasked off g' (List.mem_of_mem_erase member)⟩
  | cli => exact ⟨rule, fun off => by cases off⟩
  | sti =>
    simp only [obeys, Bool.and_eq_true, List.all_eq_true] at rule
    exact ⟨rule.2, fun _ => rule.1⟩

theorem Code.Ok.next (ok : c.Ok may) (peaceful : Peaceful may) (quiet : ∀ g ∈ others, may g false = true) :
    c.rest = [] ∨ ∃ c', c.Step others c' := by
  obtain ⟨rest, held, masked⟩ := c
  cases rest with
  | nil => exact Or.inl rfl
  | cons action rest =>
    have rule := ok.rule
    refine Or.inr ?_
    cases action with
    | take g =>
      simp only [obeys, Bool.and_eq_true, List.all_eq_true, Bool.not_eq_true', decide_eq_false_iff_not] at rule
      exact ⟨_, .take (fun g' member => peaceful g masked g' rule.1.1 (quiet g' member)) rule.1.2⟩
    | give g =>
      simp only [obeys, Bool.and_eq_true, List.contains_iff_mem] at rule
      exact ⟨_, .give rule.1⟩
    | cli => exact ⟨_, .cli⟩
    | sti => exact ⟨_, .sti⟩

/-- All code keeps to the rule, and only the code that runs has interrupts off. -/
structure Machine.Safe (may : Guard L → Bool → Bool) (s : Machine T L) : Prop where
  threads : ∀ t, (s.threads t).Ok may
  waiting : ∀ t, t ≠ s.current → (s.threads t).masked = false
  handler : ∀ h, s.handler = some h → h.Ok may ∧ (s.threads s.current).masked = false

variable [DecidableEq T] {calls ticks : Set (List (Action L))} {s s' : Machine T L}

theorem Code.Ok.at_end (ok : c.Ok may) (ended : c.rest = []) : c = ⟨[], [], false⟩ := by
  have last := ok.rule
  obtain ⟨rest, held, masked⟩ := c
  cases ended
  simp only [obeys, Bool.and_eq_true, List.isEmpty_iff, Bool.not_eq_true'] at last
  rw [last.1, last.2]

theorem Code.Ok.begin {program : List (Action L)} (ok : c.Ok may) (ended : c.rest = [])
    (rule : obeys may program [] false = true) : Code.Ok may { c with rest := program } := by
  refine ⟨?_, ok.unmasked⟩
  rw [ok.at_end ended]
  exact rule

theorem Machine.Safe.step (safe : s.Safe may) (callRule : ∀ program ∈ calls, obeys may program [] false = true)
    (tickRule : ∀ program ∈ ticks, obeys may program [] true = true) (step : s.Step calls ticks s') : s'.Safe may := by
  have update {c : Code L} (idle : s.handler = none) (ok : c.Ok may) :
      Machine.Safe may { s with threads := Function.update s.threads s.current c } := by
    refine ⟨fun t => ?_, fun t other => ?_, fun h run => by rw [idle] at run; cases run⟩
    · dsimp only
      by_cases same : t = s.current
      · rw [same, Function.update_self]
        exact ok
      · rw [Function.update_of_ne same]
        exact safe.threads t
    · dsimp only
      rw [Function.update_of_ne other]
      exact safe.waiting t other
  cases step with
  | runs idle step => exact update idle ((safe.threads _).step step)
  | calls idle ended member => exact update idle ((safe.threads _).begin ended (callRule _ member))
  | tick _ on member =>
    refine ⟨safe.threads, safe.waiting, fun h run => ?_⟩
    cases run
    exact ⟨⟨tickRule _ member, fun off => by cases off⟩, on⟩
  | handles run step =>
    refine ⟨safe.threads, safe.waiting, fun h' later => ?_⟩
    cases later
    exact ⟨(safe.handler _ run).1.step step, (safe.handler _ run).2⟩
  | leaves run _ =>
    refine ⟨safe.threads, fun t _ => ?_, fun h later => by cases later⟩
    by_cases same : t = s.current
    · rw [same]
      exact (safe.handler _ run).2
    · exact safe.waiting t same

theorem Machine.Safe.run (safe : s.Safe may) (callRule : ∀ program ∈ calls, obeys may program [] false = true)
    (tickRule : ∀ program ∈ ticks, obeys may program [] true = true) (run : s.Run calls ticks s') : s'.Safe may := by
  induction run with
  | refl => exact safe
  | tail _ step ih => exact ih.step callRule tickRule step

theorem obeys_take {program : List (Action L)} {g : Guard L} {gs : List (Guard L)} {masked : Bool}
    (rule : obeys may program gs masked = true) (member : .take g ∈ program) : ∃ masked, may g masked = true := by
  induction program generalizing gs masked with
  | nil => cases member
  | cons action program ih =>
    rcases List.mem_cons.mp member with rfl | later
    · simp only [obeys, Bool.and_eq_true] at rule
      exact ⟨masked, rule.1.1⟩
    · cases action <;> simp only [obeys, Bool.and_eq_true] at rule
      · exact ih rule.2 later
      · exact ih rule.2 later
      · exact ih rule later
      · exact ih rule.2 later

/-- With interrupts on, or in a handler, only such guards are out as may be held
with interrupts on. -/
theorem Machine.Safe.quiet {g : Guard L} (safe : s.Safe may) (on : (s.threads s.current).masked = false)
    (out : g ∈ s.guards) : may g false = true := by
  obtain ⟨t, member⟩ := out
  by_cases same : t = s.current
  · rw [same] at member
    exact (safe.threads _).unmasked on g member
  · exact (safe.threads t).unmasked (safe.waiting t same) g member

/-- Under the rule no lock ever spins. -/
theorem Machine.Safe.advances (safe : s.Safe may) (peaceful : Peaceful may) : s.Advances := by
  unfold Advances
  split
  · rename_i h run
    exact (safe.handler h run).1.next peaceful fun g out => safe.quiet (safe.handler h run).2 out
  · refine (safe.threads _).next peaceful fun g out => ?_
    obtain ⟨t, other, member⟩ := out
    exact (safe.threads t).unmasked (safe.waiting t other) g member

end Rule

section Hang
variable {T L : Type} [DecidableEq L] {may : Guard L → Bool → Bool} {c c' : Code L} {others : Set (Guard L)} {g g' : Guard L}

/-- Interrupts are off, and stay off until this guard is taken. -/
structure Code.Waits (c : Code L) (g : Guard L) : Prop where
  ahead : ∃ before after, c.rest = before ++ .take g :: after ∧ .sti ∉ before
  masked : c.masked = true

theorem Code.Waits.step (waits : c.Waits g) (out : g' ∈ others) (conflict : g.Conflicts g') (step : c.Step others c') :
    c'.Waits g := by
  obtain ⟨⟨before, after, split, off⟩, masked⟩ := waits
  cases before with
  | nil =>
    cases step with
    | take free _ =>
      cases split
      exact absurd conflict (free g' out)
    | give _ => cases split
    | cli => cases split
    | sti => cases split
  | cons action before =>
    have later : .sti ∉ before := fun member => off (List.mem_cons_of_mem _ member)
    cases step with
    | take _ _ =>
      cases split
      exact ⟨⟨before, after, rfl, later⟩, masked⟩
    | give _ =>
      cases split
      exact ⟨⟨before, after, rfl, later⟩, masked⟩
    | cli =>
      cases split
      exact ⟨⟨before, after, rfl, later⟩, rfl⟩
    | sti =>
      cases split
      exact absurd (List.mem_cons_self ..) off

/-- Whether interrupts are off behind a block. -/
def maskAfter {L : Type} : List (Action L) → Bool → Bool
  | [], masked => masked
  | .cli :: rest, _ => maskAfter rest true
  | .sti :: rest, _ => maskAfter rest false
  | _ :: rest, masked => maskAfter rest masked

theorem maskAfter_append {L : Type} (first second : List (Action L)) (masked : Bool) :
    maskAfter (first ++ second) masked = maskAfter second (maskAfter first masked) := by
  induction first generalizing masked with
  | nil => rfl
  | cons action first ih => cases action <;> exact ih _

theorem maskAfter_masking {L : Type} (body : List (Action L)) (masked : Bool) : maskAfter (masking body) masked = false := by
  change maskAfter (body ++ [.sti]) true = false
  rw [maskAfter_append]
  rfl

/-- Code that finds its locks free gets through. -/
theorem Code.runs_through {before after : List (Action L)} (split : c.rest = before ++ after)
    (rule : obeys may c.rest c.held c.masked = true)
    (free : ∀ g, .take g ∈ before → ∀ g' ∈ others, ¬g.Conflicts g') :
    ∃ c', Relation.ReflTransGen (Code.Step others) c c' ∧ c'.rest = after ∧
      obeys may c'.rest c'.held c'.masked = true ∧ c'.masked = maskAfter before c.masked := by
  induction before generalizing c with
  | nil => exact ⟨c, .refl, split, rule, rfl⟩
  | cons action before ih =>
    obtain ⟨rest, held, masked⟩ := c
    cases split
    have later : ∀ g, .take g ∈ before → ∀ g' ∈ others, ¬g.Conflicts g' :=
      fun g member => free g (List.mem_cons_of_mem _ member)
    have next {c : Code L} (step : Code.Step others ⟨action :: (before ++ after), held, masked⟩ c)
        (rest : c.rest = before ++ after) (rule : obeys may c.rest c.held c.masked = true)
        (mask : maskAfter before c.masked = maskAfter (action :: before) masked) :
        ∃ c', Relation.ReflTransGen (Code.Step others) ⟨action :: (before ++ after), held, masked⟩ c' ∧ c'.rest = after ∧
          obeys may c'.rest c'.held c'.masked = true ∧ c'.masked = maskAfter (action :: before) masked := by
      obtain ⟨c', run, rest, rule, same⟩ := ih rest rule later
      exact ⟨c', .head step run, rest, rule, same.trans mask⟩
    cases action with
    | take g =>
      simp only [obeys, Bool.and_eq_true, List.all_eq_true, Bool.not_eq_true', decide_eq_false_iff_not] at rule
      exact next (.take (free g (List.mem_cons_self ..)) rule.1.2) rfl rule.2 rfl
    | give g =>
      simp only [obeys, Bool.and_eq_true, List.contains_iff_mem] at rule
      exact next (.give rule.1) rfl rule.2 rfl
    | cli => exact next .cli rfl rule rfl
    | sti =>
      simp only [obeys, Bool.and_eq_true] at rule
      exact next .sti rfl rule.2 rfl

variable [DecidableEq T] {calls ticks : Set (List (Action L))} {s s' : Machine T L}

/-- A handler that waits for a guard of a thread waits forever. -/
theorem Machine.handler_waits {h : Code L} (run : s.Run calls ticks s') (handling : s.handler = some h) (waits : h.Waits g)
    (out : g' ∈ s.guards) (conflict : g.Conflicts g') :
    ∃ h', s'.handler = some h' ∧ h'.Waits g ∧ s'.threads = s.threads := by
  induction run with
  | refl => exact ⟨h, handling, waits, rfl⟩
  | @tail s1 s2 _ step ih =>
    obtain ⟨h1, handling1, waits1, same⟩ := ih
    have out1 : g' ∈ s1.guards := by
      unfold guards
      rw [same]
      exact out
    cases step with
    | runs idle => cases handling1.symm.trans idle
    | calls idle => cases handling1.symm.trans idle
    | tick idle => cases handling1.symm.trans idle
    | handles run step =>
      cases handling1.symm.trans run
      exact ⟨_, rfl, waits1.step out1 conflict step, same⟩
    | leaves run ended =>
      cases handling1.symm.trans run
      obtain ⟨before, after, split, _⟩ := waits1.ahead
      rw [ended] at split
      exact absurd split.symm (List.append_ne_nil_of_right_ne_nil _ (List.cons_ne_nil _ _))

/-- So does a thread that waits with interrupts off for a guard of another one. -/
theorem Machine.thread_waits (run : s.Run calls ticks s') (idle : s.handler = none)
    (waits : (s.threads s.current).Waits g) (out : g' ∈ s.others) (conflict : g.Conflicts g') :
    s'.handler = none ∧ s'.current = s.current ∧ (s'.threads s.current).Waits g ∧
      ∀ t, t ≠ s.current → s'.threads t = s.threads t := by
  induction run with
  | refl => exact ⟨idle, rfl, waits, fun _ _ => rfl⟩
  | @tail s1 s2 _ step ih =>
    obtain ⟨idle1, current, waits1, same⟩ := ih
    rw [← current] at waits1
    have out1 : g' ∈ s1.others := by
      obtain ⟨t, other, member⟩ := out
      exact ⟨t, current ▸ other, (same t other).symm ▸ member⟩
    cases step with
    | runs _ step =>
      refine ⟨idle1, current, ?_, fun t other => ?_⟩
      · dsimp only
        rw [← current, Function.update_self]
        exact waits1.step out1 conflict step
      · dsimp only
        rw [Function.update_of_ne (current ▸ other)]
        exact same t other
    | calls _ ended =>
      obtain ⟨before, after, split, _⟩ := waits1.ahead
      rw [ended] at split
      exact absurd split.symm (List.append_ne_nil_of_right_ne_nil _ (List.cons_ne_nil _ _))
    | tick _ on => exact absurd (on.symm.trans waits1.masked) Bool.false_ne_true
    | handles run => cases idle1.symm.trans run
    | leaves run => cases idle1.symm.trans run

/-- The machine at the first instruction of an interrupt handler. -/
def Machine.interrupted (s : Machine T L) (program : List (Action L)) : Machine T L :=
  { s with handler := some ⟨program, [], true⟩ }

theorem Machine.handler_runs {h h' : Code L} (handling : s.handler = some h)
    (run : Relation.ReflTransGen (Code.Step s.guards) h h') : s.Run calls ticks { s with handler := some h' } := by
  induction run with
  | refl =>
    rw [← handling]
    exact .refl
  | tail _ step ih => exact ih.tail (.handles rfl step)

/-- A handler whose guards are free comes to its end, and any thread goes on. -/
theorem Machine.handler_leaves {body : List (Action L)} (rule : obeys may (body ++ [.sti]) [] true = true)
    (free : ∀ g, .take g ∈ body → ∀ g' ∈ s.guards, ¬g.Conflicts g') (next : T) :
    (s.interrupted (body ++ [.sti])).Run calls ticks { s with
      handler := none
      current := next } := by
  have whole : ∀ g, .take g ∈ body ++ [.sti] → ∀ g' ∈ s.guards, ¬g.Conflicts g' := by
    intro g member
    rcases List.mem_append.mp member with member | last
    · exact free g member
    · cases List.mem_singleton.mp last
  obtain ⟨h', run, ended, _⟩ := @Code.runs_through L _ may ⟨body ++ [.sti], [], true⟩ s.guards (body ++ [.sti]) []
    (List.append_nil _).symm rule whole
  have handled : (s.interrupted (body ++ [.sti])).Run calls ticks { s with handler := some h' } := handler_runs rfl run
  exact handled.tail (.leaves rfl ended)

/-- A handler comes to its end exactly if the guards that it takes are free. -/
theorem Machine.handler_ends_iff {body : List (Action L)} (rule : obeys may (body ++ [.sti]) [] true = true)
    (off : .sti ∉ body) :
    (∃ s', (s.interrupted (body ++ [.sti])).Run calls ticks s' ∧ s'.handler = none) ↔
      ∀ g, .take g ∈ body → ∀ g' ∈ s.guards, ¬g.Conflicts g' := by
  constructor
  · rintro ⟨s', run, ended⟩ g member g' out conflict
    obtain ⟨before, after, split⟩ := List.append_of_mem member
    have waits : Code.Waits ⟨body ++ [.sti], [], true⟩ g := by
      refine ⟨⟨before, after ++ [.sti], by rw [split, List.append_assoc, List.cons_append], fun early => off ?_⟩, rfl⟩
      rw [split]
      exact List.mem_append_left _ early
    obtain ⟨h', handling, _⟩ := handler_waits run rfl waits out conflict
    cases handling.symm.trans ended
  · exact fun free => ⟨_, handler_leaves rule free s.current, rfl⟩

theorem Machine.thread_runs {c : Code L} (idle : s.handler = none)
    (run : Relation.ReflTransGen (Code.Step s.others) (s.threads s.current) c) :
    s.Run calls ticks { s with threads := Function.update s.threads s.current c } := by
  induction run with
  | refl =>
    rw [Function.update_eq_self]
    exact .refl
  | @tail c1 c2 _ step ih =>
    have next : Machine.Step calls ticks { s with threads := Function.update s.threads s.current c1 }
        { s with threads := Function.update (Function.update s.threads s.current c1) s.current c2 } := by
      refine .runs idle ?_
      rw [others_update]
      dsimp only
      rw [Function.update_self]
      exact step
    rw [Function.update_idem] at next
    exact ih.tail next

/-- A thread that begins a call comes to a guard in it, if the locks are free. -/
theorem Machine.call_takes {program before after : List (Action L)} (idle : s.handler = none)
    (caller : s.threads s.current = ⟨[], [], false⟩) (member : program ∈ calls)
    (split : program = before ++ .take g :: after)
    (rule : obeys may program [] false = true) (free : ∀ g, .take g ∈ program → ∀ g' ∈ s.others, ¬g.Conflicts g') :
    ∃ c, s.Run calls ticks { s with threads := Function.update s.threads s.current c } ∧
      c.masked = maskAfter before false ∧ g ∈ c.held := by
  have begins : Machine.Step calls ticks s
      { s with threads := Function.update s.threads s.current ⟨program, [], false⟩ } := by
    have step : Machine.Step calls ticks s _ := .calls idle (by rw [caller]) member
    rw [caller] at step
    exact step
  obtain ⟨⟨rest, held, masked⟩, run, ahead, rules, mask⟩ := @Code.runs_through L _ may ⟨program, [], false⟩ s.others before _
    split rule fun g taken => free g (split ▸ List.mem_append_left _ taken)
  cases ahead
  simp only [obeys, Bool.and_eq_true, List.all_eq_true, Bool.not_eq_true', decide_eq_false_iff_not] at rules
  have takes : Code.Step s.others ⟨.take g :: after, held, masked⟩ ⟨after, g :: held, masked⟩ :=
    .take (free g (split ▸ List.mem_append_right _ (List.mem_cons_self ..))) rules.1.2
  have goes := @thread_runs T L _ _ calls ticks
    { s with threads := Function.update s.threads s.current ⟨program, [], false⟩ } ⟨after, g :: held, masked⟩ idle (by
      rw [others_update]
      dsimp only
      rw [Function.update_self]
      exact run.tail takes)
  dsimp only at goes
  rw [Function.update_idem] at goes
  exact ⟨_, .head begins goes, mask, List.mem_cons_self ..⟩

/-- A thread comes to the point where interrupts are on again exactly if the guards
that it takes until then are free. -/
theorem Machine.thread_unmasks_iff {body after : List (Action L)} (idle : s.handler = none)
    (masked : (s.threads s.current).masked = true) (split : (s.threads s.current).rest = body ++ .sti :: after)
    (rule : obeys may (s.threads s.current).rest (s.threads s.current).held (s.threads s.current).masked = true)
    (off : .sti ∉ body) :
    (∃ s', s.Run calls ticks s' ∧ (s'.threads s.current).masked = false) ↔
      ∀ g, .take g ∈ body → ∀ g' ∈ s.others, ¬g.Conflicts g' := by
  constructor
  · rintro ⟨s', run, on⟩ g member g' out conflict
    obtain ⟨before, later, here⟩ := List.append_of_mem member
    have waits : (s.threads s.current).Waits g := by
      refine ⟨⟨before, later ++ .sti :: after, ?_, fun early => off ?_⟩, masked⟩
      · rw [split, here, List.append_assoc, List.cons_append]
      · rw [here]
        exact List.mem_append_left _ early
    obtain ⟨_, _, still, _⟩ := thread_waits run idle waits out conflict
    exact absurd (on.symm.trans still.masked) Bool.false_ne_true
  · intro free
    obtain ⟨c, run, rest, _⟩ := Code.runs_through split rule free
    have last : Code.Step s.others c ⟨after, c.held, false⟩ := by
      obtain ⟨rest', held, off⟩ := c
      cases rest
      exact .sti
    refine ⟨_, thread_runs idle (run.tail last), ?_⟩
    dsimp only
    rw [Function.update_self]

/-- Under the rule every handler comes to its end. -/
theorem Machine.Safe.handler_leaves {body : List (Action L)} (safe : s.Safe may) (peaceful : Peaceful may)
    (on : (s.threads s.current).masked = false) (rule : obeys may (body ++ [.sti]) [] true = true) (next : T) :
    (s.interrupted (body ++ [.sti])).Run calls ticks { s with
      handler := none
      current := next } := by
  refine Machine.handler_leaves rule (fun g member g' out => ?_) next
  obtain ⟨masked, allowed⟩ := obeys_take rule (List.mem_append_left _ member)
  exact peaceful g masked g' allowed (safe.quiet on out)

end Hang

end Irq
