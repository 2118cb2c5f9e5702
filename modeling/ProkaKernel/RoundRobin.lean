import ProkaKernel.Rotation
import ProkaKernel.RunQueues
import Mathlib.Data.List.Chain

namespace ProkaKernel
open Rotation

/-- A task that a tick switches to. -/
structure Turn where
  typ : ProcType
  id : Nat
  deriving DecidableEq

/-- One tick and the task it loads: the one that `CURRENT_ID` then names, in the
class whose turn it was. `None` is a panic. -/
def tick (s : Sched) (trap : Trap) : Option (Option Turn × Sched) :=
  match switchTask s trap with
  | .panicked => none
  | .returned s' _ => some (none, s')
  | .loaded s' _ _ => some (some ⟨s.next, s'.currentId⟩, s')

/-- Consecutive ticks, with what each of them loads. -/
def ticks (s : Sched) : List Trap → Option (List (Option Turn) × Sched)
  | [] => some ([], s)
  | trap :: traps =>
    (tick s trap).bind fun (out, s') => (ticks s' traps).map fun (outs, s'') => (out :: outs, s'')

/-- The slot of that class which a tick has switched to. -/
def Turn.slot? (typ : ProcType) : Option Turn → Option Nat
  | some turn => if turn.typ = typ then some turn.id else none
  | none => none

/-- The slots of one class that were run, in the order of their turns. -/
def ran (typ : ProcType) (outs : List (Option Turn)) : List Nat := outs.filterMap (Turn.slot? typ)

section
variable {s s' : Sched} {trap : Trap} {traps : List Trap} {out : Option Turn} {outs : List (Option Turn)}
  {typ : ProcType}

theorem ran_same (id : Nat) : ran typ [some ⟨typ, id⟩] = [id] :=
  List.filterMap_cons_some (if_pos rfl)

theorem ran_other (id : Nat) {turn : ProcType} (apart : turn ≠ typ) : ran typ [some ⟨turn, id⟩] = [] :=
  List.filterMap_cons_none (if_neg apart)

theorem ticks_cons : ticks s (trap :: traps) = some (outs, s') ↔
    ∃ out middle rest, tick s trap = some (out, middle) ∧ ticks middle traps = some (rest, s') ∧ outs = out :: rest := by
  constructor
  · intro run
    obtain ⟨⟨out, middle⟩, first, later⟩ := Option.bind_eq_some_iff.mp run
    obtain ⟨⟨rest, after⟩, later, same⟩ := Option.map_eq_some_iff.mp later
    cases same
    exact ⟨out, middle, rest, first, later, rfl⟩
  · rintro ⟨out, middle, rest, first, later, rfl⟩
    simp only [ticks, first, Option.bind_some, later, Option.map_some]

/-- What one tick can do, in a state whose queues mirror the tables. -/
theorem Mirrors.tick_cases (mirrors : Mirrors s) (trap : Trap) :
    (Idles s ∧ tick s trap = some (none, s)) ∨
    (∃ s', Stays s s' ∧ tick s trap = some (none, s')) ∨
    (∃ s' id, Switched s s' trap id ∧ tick s trap = some (some ⟨s.next, id⟩, s')) := by
  unfold tick
  rcases mirrors.switchTask_cases trap with ⟨idles, out⟩ | ⟨s', stays, out⟩ | ⟨s', id, switched, out⟩
  · exact Or.inl ⟨idles, by rw [out]⟩
  · exact Or.inr (Or.inl ⟨s', stays, by rw [out]⟩)
  · exact Or.inr (Or.inr ⟨s', id, switched, by rw [out, ← switched.currentId]⟩)

/-- No tick panics, and every tick leaves the queues as mirrors of the tables. -/
theorem Mirrors.tick (mirrors : Mirrors s) (trap : Trap) :
    ∃ out s', ProkaKernel.tick s trap = some (out, s') ∧ Mirrors s' := by
  rcases mirrors.tick_cases trap with ⟨_, out⟩ | ⟨s', stays, out⟩ | ⟨s', id, switched, out⟩
  · exact ⟨_, s, out, mirrors⟩
  · exact ⟨_, s', out, mirrors.stays stays⟩
  · exact ⟨_, s', out, mirrors.switched switched⟩

theorem Mirrors.ticks (mirrors : Mirrors s) (traps : List Trap) :
    ∃ outs s', ProkaKernel.ticks s traps = some (outs, s') ∧ outs.length = traps.length := by
  induction traps generalizing s with
  | nil => exact ⟨[], s, rfl, rfl⟩
  | cons trap traps ih =>
    obtain ⟨out, middle, first, mirrored⟩ := mirrors.tick trap
    obtain ⟨outs, s', rest, length⟩ := ih mirrored
    exact ⟨out :: outs, s', ticks_cons.mpr ⟨out, middle, outs, first, rest, rfl⟩, congrArg (· + 1) length⟩

/-- A tick takes the head of one queue to its end, if it switches. -/
theorem Mirrors.tick_served (mirrors : Mirrors s) (run : ProkaKernel.tick s trap = some (out, s')) (typ : ProcType) :
    Served (s.queue typ) (ran typ [out]) (s'.queue typ) := by
  rcases mirrors.tick_cases trap with ⟨_, same⟩ | ⟨after, stays, same⟩ | ⟨after, id, switched, same⟩
  · cases run.symm.trans same
    exact .none _
  · cases run.symm.trans same
    rw [stays.queues]
    exact .none _
  · cases run.symm.trans same
    rcases s.next.eq_or_other typ with rfl | rfl
    · obtain ⟨rest, before, rotated⟩ := switched.head
      rw [before, rotated, ran_same]
      exact .head id rest
    · rw [switched.otherQueue, ran_other id s.next.other_ne.symm]
      exact .none _

/-- Within a class the turns follow the queue. -/
theorem Mirrors.ticks_served (mirrors : Mirrors s) (run : ProkaKernel.ticks s traps = some (outs, s'))
    (typ : ProcType) : Served (s.queue typ) (ran typ outs) (s'.queue typ) := by
  induction traps generalizing s outs with
  | nil =>
    cases run
    exact .none _
  | cons trap traps ih =>
    obtain ⟨out, middle, rest, first, later, rfl⟩ := ticks_cons.mp run
    obtain ⟨_, _, again, mirrored⟩ := mirrors.tick trap
    cases first.symm.trans again
    have split : ran typ (out :: rest) = ran typ [out] ++ ran typ rest := List.filterMap_append (l := [out])
    rw [split]
    exact (mirrors.tick_served first typ).trans (ih mirrored later)

/-- With work in both classes every tick switches, and the next tick is for
the other class. -/
theorem Mirrors.tick_both (mirrors : Mirrors s) (busy : ∀ typ, s.queue typ ≠ [])
    (run : ProkaKernel.tick s trap = some (out, s')) :
    ∃ id, out = some ⟨s.next, id⟩ ∧ s'.next = s.next.other ∧ ∀ typ, s'.queue typ ≠ [] := by
  rcases mirrors.tick_cases trap with ⟨idles, _⟩ | ⟨after, stays, _⟩ | ⟨after, id, switched, same⟩
  · exact absurd idles.normal (busy .normal)
  · exact absurd stays.empty (busy s.next)
  · cases run.symm.trans same
    refine ⟨id, rfl, ?_, fun typ empty => busy typ ?_⟩
    · rw [switched.next, if_neg (busy _)]
    · have perm := switched.queue_perm typ
      rw [empty] at perm
      exact perm.nil_eq.symm

theorem Mirrors.ticks_alternate (mirrors : Mirrors s) (busy : ∀ typ, s.queue typ ≠ [])
    (run : ProkaKernel.ticks s traps = some (outs, s')) :
    ∃ turns : List Turn, outs = turns.map some ∧ (turns.IsChain fun turn after => after.typ = turn.typ.other) ∧
      ∀ turn ∈ turns.head?, turn.typ = s.next := by
  induction traps generalizing s outs with
  | nil =>
    cases run
    exact ⟨[], rfl, .nil, fun turn first => by cases first⟩
  | cons trap traps ih =>
    obtain ⟨out, middle, rest, first, later, rfl⟩ := ticks_cons.mp run
    obtain ⟨id, rfl, turn, busy'⟩ := mirrors.tick_both busy first
    obtain ⟨_, _, again, mirrored⟩ := mirrors.tick trap
    cases first.symm.trans again
    obtain ⟨turns, rfl, chain, next⟩ := ih mirrored busy' later
    refine ⟨⟨s.next, id⟩ :: turns, rfl, chain.cons fun after member => ?_, fun first member => ?_⟩
    · rw [next after member, turn]
    · cases member
      rfl

/-- With work in one class only, its turn comes and then stays. -/
theorem Mirrors.tick_single (mirrors : Mirrors s) (busy : s.queue typ ≠ []) (idle : s.queue typ.other = [])
    (run : ProkaKernel.tick s trap = some (out, s')) :
    s'.next = typ ∧ s'.queue typ ≠ [] ∧ s'.queue typ.other = [] ∧ (s.next = typ → ∃ id, out = some ⟨typ, id⟩) := by
  rcases mirrors.tick_cases trap with ⟨idles, _⟩ | ⟨after, stays, same⟩ | ⟨after, id, switched, same⟩
  · exact absurd (idles.queue typ) busy
  · cases run.symm.trans same
    have turn : s.next = typ.other := (typ.eq_or_other s.next).resolve_left fun here => busy (here ▸ stays.empty)
    rw [stays.next, turn, stays.queues, ProcType.other_other]
    exact ⟨rfl, busy, idle, fun here => absurd here typ.other_ne⟩
  · cases run.symm.trans same
    have turn : s.next = typ := (typ.eq_or_other s.next).resolve_right fun there => switched.busy (there ▸ idle)
    have perm := switched.queue_perm typ
    subst turn
    refine ⟨?_, fun empty => busy ?_, ?_, fun _ => ⟨id, rfl⟩⟩
    · rw [switched.next, if_pos idle]
    · rw [empty] at perm
      exact perm.nil_eq.symm
    · rw [switched.otherQueue, idle]

theorem Mirrors.ticks_single (mirrors : Mirrors s) (busy : s.queue typ ≠ []) (idle : s.queue typ.other = [])
    (run : ProkaKernel.ticks s traps = some (outs, s')) :
    (s.next = typ → ∀ out ∈ outs, ∃ id, out = some ⟨typ, id⟩) ∧ ∀ out ∈ outs.tail, ∃ id, out = some ⟨typ, id⟩ := by
  induction traps generalizing s outs with
  | nil =>
    cases run
    exact ⟨fun _ out member => absurd member List.not_mem_nil, fun out member => absurd member List.not_mem_nil⟩
  | cons trap traps ih =>
    obtain ⟨out, middle, rest, first, later, rfl⟩ := ticks_cons.mp run
    obtain ⟨turn, busy', idle', switches⟩ := mirrors.tick_single busy idle first
    obtain ⟨_, _, again, mirrored⟩ := mirrors.tick trap
    cases first.symm.trans again
    have steady := (ih mirrored busy' idle' later).1 turn
    exact ⟨fun here => List.forall_mem_cons.mpr ⟨switches here, steady⟩, steady⟩

end

/-- Round robin: the ticks never panic. With work in both classes every tick
switches and the classes alternate; with work in one class every tick but the
first switches to that class. Within a class the turns go round the queue, so
that any round of turns runs each of its processes exactly once. -/
theorem round_robin {s : Sched} (mirrors : Mirrors s) (traps : List Trap) :
    ∃ outs s', ticks s traps = some (outs, s') ∧ outs.length = traps.length ∧
      (s.queue .normal ≠ [] → s.queue .driver ≠ [] → ∃ turns : List Turn, outs = turns.map some ∧
        turns.IsChain fun turn after => after.typ = turn.typ.other) ∧
      (∀ typ, s.queue typ ≠ [] → s.queue typ.other = [] → ∀ out ∈ outs.tail, ∃ id, out = some ⟨typ, id⟩) ∧
      ∀ typ, (∀ k < (ran typ outs).length, (ran typ outs)[k]? = (s.queue typ)[k % (s.queue typ).length]?) ∧
        ∀ k, k + (s.queue typ).length ≤ (ran typ outs).length →
          (((ran typ outs).drop k).take (s.queue typ).length).Nodup ∧
          ∀ id, id ∈ ((ran typ outs).drop k).take (s.queue typ).length ↔
            id < maxPs ∧ (s.slot typ id).present = true := by
  obtain ⟨outs, s', run, length⟩ := mirrors.ticks traps
  refine ⟨outs, s', run, length, fun normal driver => ?_, fun typ busy idle => (mirrors.ticks_single busy idle run).2,
    fun typ => ?_⟩
  · obtain ⟨turns, same, chain, _⟩ := mirrors.ticks_alternate (fun typ => by cases typ <;> assumption) run
    exact ⟨turns, same, chain⟩
  · have served := mirrors.ticks_served run typ
    refine ⟨fun k inside => served.getElem inside, fun k inside => ?_⟩
    rw [served.window inside]
    exact ⟨List.nodup_rotate.mpr (mirrors.nodup typ), fun id => List.mem_rotate.trans (mirrors.mem typ id)⟩

/-- Two normal processes and a driver after boot, and four ticks. -/
theorem round_robin_three_tasks :
    ∃ s, run {} [.createNormal 0x2000000 0, .createNormal 0x2001000 0, .createDriver 0x2002000] = some s ∧
      Mirrors s ∧ s.queue .normal = [0, 1] ∧ s.queue .driver = [0] ∧
      ∃ outs s', ticks s (List.replicate 4 (.interrupting {} kernelPml4)) = some (outs, s') ∧
        outs = [some ⟨.normal, 0⟩, some ⟨.driver, 0⟩, some ⟨.normal, 1⟩, some ⟨.driver, 0⟩] ∧
        ∃ turns : List Turn, outs = turns.map some ∧ turns.IsChain fun turn after => after.typ = turn.typ.other := by
  have ran : ∃ s, run {} [.createNormal 0x2000000 0, .createNormal 0x2001000 0, .createDriver 0x2002000] = some s ∧
      s.queue .normal = [0, 1] ∧ s.queue .driver = [0] ∧
      (ticks s (List.replicate 4 (.interrupting {} kernelPml4))).map Prod.fst =
        some [some ⟨.normal, 0⟩, some ⟨.driver, 0⟩, some ⟨.normal, 1⟩, some ⟨.driver, 0⟩] := ⟨_, rfl, rfl, rfl, rfl⟩
  obtain ⟨s, ran, normal, driver, turns⟩ := ran
  have mirrors := (SchedReach.boot.run ran).mirrors
  obtain ⟨outs, s', ticked, _, both, _⟩ := round_robin mirrors (List.replicate 4 (.interrupting {} kernelPml4))
  rw [ticked] at turns
  exact ⟨s, ran, mirrors, normal, driver, outs, s', ticked, Option.some.inj turns,
    both (by rw [normal]; exact List.cons_ne_nil _ _) (by rw [driver]; exact List.cons_ne_nil _ _)⟩

end ProkaKernel
