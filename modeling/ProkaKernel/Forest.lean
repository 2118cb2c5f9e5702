import Mathlib.Data.Set.Insert

namespace Forest

variable {F I E : Type}

/-- Tables kept in frames: entry `i` of the table in frame `t` is `T t i`, and
`target` tells which frame an entry points to. A walk follows the entries
named by a list of indices. -/
def walk (target : E → Option F) (T : F → I → E) (r : F) : List I → Option F
  | [] => some r
  | i :: p => (target (T r i)).bind fun t => walk target T t p

section Walk
variable {target : E → Option F} {T T' : F → I → E} {r : F} {p : List I}

theorem walk_append (target : E → Option F) (T : F → I → E) (r : F) (p q : List I) :
    walk target T r (p ++ q) = (walk target T r p).bind fun t => walk target T t q := by
  induction p generalizing r with
  | nil => rfl
  | cons i p ih =>
    rw [List.cons_append, walk, walk, Option.bind_assoc]
    exact congrArg _ (funext fun t => ih t)

theorem walk_through {t : F} {i : I} {s : List I} (reached : walk target T r p = some t) :
    walk target T r (p ++ i :: s) = (target (T t i)).bind fun x => walk target T x s := by
  rw [walk_append, reached, Option.bind_some, walk]

/-- A walk depends only on the entries it passes. -/
theorem walk_congr (same : ∀ q j s t, p = q ++ j :: s → walk target T r q = some t →
    target (T' t j) = target (T t j)) : walk target T' r p = walk target T r p := by
  induction p generalizing r with
  | nil => rfl
  | cons i p ih =>
    rw [walk, walk, same [] i p r rfl rfl]
    cases next : target (T r i) with
    | none => rfl
    | some t =>
      rw [Option.bind_some, Option.bind_some]
      refine ih fun q j s u split reached => same (i :: q) j s u (by rw [split]; rfl) ?_
      rw [walk, next]
      exact reached

/-- Where entries were only cleared, every walk was there before. -/
theorem walk_of_cleared {f : F} (cleared : ∀ t j, target (T' t j) = target (T t j) ∨ target (T' t j) = none)
    (reached : walk target T' r p = some f) : walk target T r p = some f := by
  induction p generalizing r with
  | nil => exact reached
  | cons i p ih =>
    obtain ⟨t, next, rest⟩ := Option.bind_eq_some_iff.mp reached
    rcases cleared r i with same | none
    · rw [walk, ← same, next]
      exact ih rest
    · rw [none] at next
      cases next

/-- Where one entry was changed that points to an empty table, all walks are
still there but those that end in this table. -/
theorem walk_cut {t u f : F} {i : I} (entry : target (T u i) = some f) (blank : ∀ j, target (T f j) = none)
    (others : ∀ t j, ¬(t = u ∧ j = i) → target (T' t j) = target (T t j)) (reached : walk target T r p = some t) :
    walk target T' r p = some t ∨ t = f := by
  induction p generalizing r with
  | nil => exact Or.inl reached
  | cons j p ih =>
    obtain ⟨s, next, rest⟩ := Option.bind_eq_some_iff.mp reached
    by_cases here : r = u ∧ j = i
    · obtain ⟨rfl, rfl⟩ := here
      obtain rfl : f = s := Option.some.inj (entry.symm.trans next)
      cases p with
      | nil => exact Or.inr (Option.some.inj rest).symm
      | cons k p =>
        rw [walk, blank k] at rest
        cases rest
    · rw [walk, others r j here, next]
      exact ih rest

/-- A walk that follows fewer entries. -/
theorem walk_mono {narrow : E → Option F} {f : F} (fewer : ∀ e t, narrow e = some t → target e = some t)
    (reached : walk narrow T r p = some f) : walk target T r p = some f := by
  induction p generalizing r with
  | nil => exact reached
  | cons i p ih =>
    obtain ⟨t, next, rest⟩ := Option.bind_eq_some_iff.mp reached
    rw [walk, fewer _ t next]
    exact ih rest

end Walk

section Owned
variable (target : E → Option F) (valid : List I → Prop)

/-- Some walk from a root ends in the frame. -/
def Placed (T : F → I → E) (R : Set F) (f : F) : Prop :=
  ∃ r p, r ∈ R ∧ valid p ∧ walk target T r p = some f

/-- Every frame has at most one place in the forest below the roots, frames
with a place are used, and so are the pending ones, which have none. -/
structure Owned (T : F → I → E) (R : Set F) (used : F → Prop) (pend : Set F) : Prop where
  exclusive : ∀ {r r' p p' f}, r ∈ R → r' ∈ R → valid p → valid p' →
    walk target T r p = some f → walk target T r' p' = some f → r = r' ∧ p = p'
  placed : ∀ f, Placed target valid T R f → used f
  pending : ∀ f ∈ pend, used f ∧ ¬Placed target valid T R f

/-- `T'` is `T` with frame `x` hung below entry `i` of the table `t`. -/
structure Attach (T T' : F → I → E) (R : Set F) (r : F) (p : List I) (i : I) (t x : F) : Prop where
  root : r ∈ R
  isValid : valid (p ++ [i])
  reached : walk target T r p = some t
  free : target (T t i) = none
  entry : target (T' t i) = some x
  blank : ∀ j, valid (p ++ [i, j]) → target (T' x j) = none
  others : ∀ u j, u ≠ x → ¬(u = t ∧ j = i) → target (T' u j) = target (T u j)

/-- `T'` is `T` with the childless frame `x` taken off entry `i` of table `t`. -/
structure Detach (T T' : F → I → E) (R : Set F) (r : F) (p : List I) (i : I) (t x : F) : Prop where
  root : r ∈ R
  isValid : valid (p ++ [i])
  reached : walk target T r p = some t
  entry : target (T t i) = some x
  childless : ∀ j, valid (p ++ [i, j]) → target (T x j) = none
  cleared : target (T' t i) = none
  others : ∀ u j, ¬(u = t ∧ j = i) → target (T' u j) = target (T u j)

/-- `T'` is `T` with a blank table in frame `x`. -/
structure Plant (T T' : F → I → E) (x : F) : Prop where
  blank : ∀ j, valid [j] → target (T' x j) = none
  others : ∀ u j, u ≠ x → target (T' u j) = target (T u j)

variable {target valid} {T T' : F → I → E} {R : Set F} {used used' : F → Prop} {pend pend' : Set F}

theorem Owned.adjust (owned : Owned target valid T R used pend)
    (placed : ∀ f, Placed target valid T R f → used' f)
    (pending : ∀ f ∈ pend', used' f ∧ ¬Placed target valid T R f) : Owned target valid T R used' pend' :=
  ⟨owned.exclusive, placed, pending⟩

theorem Owned.restrict (owned : Owned target valid T R used pend) {R' : Set F} (roots : R' ⊆ R)
    (fewer : pend' ⊆ pend) : Owned target valid T R' used pend' := by
  have placed (f : F) : Placed target valid T R' f → Placed target valid T R f := by
    rintro ⟨r, p, root, isValid, reached⟩
    exact ⟨r, p, roots root, isValid, reached⟩
  exact ⟨fun root root' => owned.exclusive (roots root) (roots root'), fun f here => owned.placed f (placed f here),
    fun f member => ⟨(owned.pending f (fewer member)).1,
      fun here => (owned.pending f (fewer member)).2 (placed f here)⟩⟩

/-- Edits that no walk notices. -/
theorem Owned.unmoved (owned : Owned target valid T R used pend)
    (same : ∀ r p, r ∈ R → valid p → walk target T' r p = walk target T r p) :
    Owned target valid T' R used pend := by
  have placed (f : F) : Placed target valid T' R f → Placed target valid T R f := by
    rintro ⟨r, p, root, isValid, reached⟩
    exact ⟨r, p, root, isValid, same r p root isValid ▸ reached⟩
  refine ⟨fun root root' isValid isValid' reached reached' => ?_, fun f here => owned.placed f (placed f here),
    fun f member => ⟨(owned.pending f member).1, fun here => (owned.pending f member).2 (placed f here)⟩⟩
  rw [same _ _ root isValid] at reached
  rw [same _ _ root' isValid'] at reached'
  exact owned.exclusive root root' isValid isValid' reached reached'

/-- A forest that gained one frame at one place, and that frame had none. -/
theorem Owned.extend (owned : Owned target valid T R used pend) {R' : Set F} {r x : F} {p : List I}
    (walks : ∀ r' p' y, r' ∈ R' → valid p' → walk target T' r' p' = some y →
      (r' ∈ R ∧ walk target T r' p' = some y) ∨ (r' = r ∧ p' = p ∧ y = x))
    (fresh : ¬Placed target valid T R x) (grows : ∀ f, used f → used' f) (taken : used' x)
    (fewer : ∀ f ∈ pend', f ∈ pend ∧ f ≠ x) : Owned target valid T' R' used' pend' := by
  have placed (f : F) (here : Placed target valid T' R' f) : Placed target valid T R f ∨ f = x := by
    obtain ⟨r', p', root', isValid', reached⟩ := here
    rcases walks r' p' f root' isValid' reached with ⟨root, old⟩ | ⟨_, _, new⟩
    · exact Or.inl ⟨r', p', root, isValid', old⟩
    · exact Or.inr new
  refine ⟨fun {r1 r2 p1 p2 f} root1 root2 valid1 valid2 reached1 reached2 => ?_, fun f here => ?_, fun f member => ?_⟩
  · rcases walks r1 p1 f root1 valid1 reached1 with ⟨old1, walk1⟩ | ⟨rfl, rfl, rfl⟩
    · rcases walks r2 p2 f root2 valid2 reached2 with ⟨old2, walk2⟩ | ⟨_, _, rfl⟩
      · exact owned.exclusive old1 old2 valid1 valid2 walk1 walk2
      · exact absurd ⟨_, _, old1, valid1, walk1⟩ fresh
    · rcases walks r2 p2 f root2 valid2 reached2 with ⟨old2, walk2⟩ | ⟨rfl, rfl, _⟩
      · exact absurd ⟨_, _, old2, valid2, walk2⟩ fresh
      · exact ⟨rfl, rfl⟩
  · rcases placed f here with old | rfl
    · exact grows f (owned.placed f old)
    · exact taken
  · obtain ⟨member, apart⟩ := fewer f member
    obtain ⟨used, unplaced⟩ := owned.pending f member
    exact ⟨grows f used, fun here => (placed f here).elim unplaced apart⟩

section Edits
variable (closed : ∀ p q, valid (p ++ q) → valid p)
include closed

/-- Off the branch below one entry, an edit of that entry changes no walk. -/
theorem Owned.walk_off_branch (owned : Owned target valid T R used pend) {r : F} {p : List I} {i : I} {t : F}
    (root : r ∈ R) (isValid : valid p) (reached : walk target T r p = some t)
    (others : ∀ u j, Placed target valid T R u → ¬(u = t ∧ j = i) → target (T' u j) = target (T u j))
    {r' : F} {p' : List I} (root' : r' ∈ R) (isValid' : valid p') (off : ∀ s, r' = r → p' ≠ p ++ i :: s) :
    walk target T' r' p' = walk target T r' p' := by
  refine walk_congr fun q j s u split here => ?_
  have validQ : valid q := closed q (j :: s) (split ▸ isValid')
  refine others u j ⟨r', q, root', validQ, here⟩ ?_
  rintro ⟨rfl, rfl⟩
  obtain ⟨rfl, rfl⟩ := owned.exclusive root' root validQ isValid here reached
  exact off s rfl split

theorem Owned.walk_attach (owned : Owned target valid T R used pend) {r : F} {p : List I} {i : I} {t x : F}
    (attach : Attach target valid T T' R r p i t x) (fresh : ¬Placed target valid T R x)
    {r' : F} {p' : List I} (root' : r' ∈ R) (isValid' : valid p') (y : F) :
    walk target T' r' p' = some y ↔ walk target T r' p' = some y ∨ (r' = r ∧ p' = p ++ [i] ∧ y = x) := by
  have isValid : valid p := closed p [i] attach.isValid
  have others (u : F) (j : I) (placed : Placed target valid T R u) (apart : ¬(u = t ∧ j = i)) :
      target (T' u j) = target (T u j) :=
    attach.others u j (fun same => fresh (same ▸ placed)) apart
  have off {r' : F} {p' : List I} (root' : r' ∈ R) (isValid' : valid p')
      (aside : ∀ s, r' = r → p' ≠ p ++ i :: s) : walk target T' r' p' = walk target T r' p' :=
    owned.walk_off_branch closed attach.root isValid attach.reached others root' isValid' aside
  by_cases branch : r' = r ∧ ∃ s, p' = p ++ i :: s
  · obtain ⟨rfl, s, rfl⟩ := branch
    have reached : walk target T' r' p = some t := by
      rw [off root' isValid fun s _ same => ?_]
      · exact attach.reached
      · have length := congrArg List.length same
        simp at length
    rw [walk_through attach.reached, attach.free, Option.bind_none, walk_through reached, attach.entry,
      Option.bind_some]
    cases s with
    | nil =>
      simp only [walk, Option.some.injEq, reduceCtorEq, true_and, false_or]
      exact eq_comm
    | cons j s =>
      have blank := attach.blank j (closed (p ++ [i, j]) s (by simpa using isValid'))
      rw [walk, blank, Option.bind_none]
      simp
  · rw [off root' isValid' fun s same split => branch ⟨same, s, split⟩]
    exact (or_iff_left fun new => branch ⟨new.1, [], new.2.1⟩).symm

theorem Owned.walk_detach (owned : Owned target valid T R used pend) {r : F} {p : List I} {i : I} {t x : F}
    (detach : Detach target valid T T' R r p i t x) {r' : F} {p' : List I} (root' : r' ∈ R)
    (isValid' : valid p') (y : F) :
    walk target T' r' p' = some y ↔ walk target T r' p' = some y ∧ ¬(r' = r ∧ p' = p ++ [i]) := by
  have isValid : valid p := closed p [i] detach.isValid
  have off {r' : F} {p' : List I} (root' : r' ∈ R) (isValid' : valid p')
      (aside : ∀ s, r' = r → p' ≠ p ++ i :: s) : walk target T' r' p' = walk target T r' p' :=
    owned.walk_off_branch closed detach.root isValid detach.reached
      (fun u j _ apart => detach.others u j apart) root' isValid' aside
  by_cases branch : r' = r ∧ ∃ s, p' = p ++ i :: s
  · obtain ⟨rfl, s, rfl⟩ := branch
    have reached : walk target T' r' p = some t := by
      rw [off root' isValid fun s _ same => ?_]
      · exact detach.reached
      · have length := congrArg List.length same
        simp at length
    rw [walk_through detach.reached, detach.entry, Option.bind_some, walk_through reached, detach.cleared,
      Option.bind_none]
    cases s with
    | nil => simp
    | cons j s =>
      have none := detach.childless j (closed (p ++ [i, j]) s (by simpa using isValid'))
      rw [walk, none, Option.bind_none]
      simp
  · rw [off root' isValid' fun s same split => branch ⟨same, s, split⟩]
    exact (and_iff_left fun gone => branch ⟨gone.1, [], gone.2⟩).symm

theorem walk_plant {x : F} (plant : Plant target valid T T' x) (fresh : ¬Placed target valid T R x)
    {r' : F} {p' : List I} (root' : r' ∈ insert x R) (isValid' : valid p') (y : F) :
    walk target T' r' p' = some y ↔ (r' ∈ R ∧ walk target T r' p' = some y) ∨ (r' = x ∧ p' = [] ∧ y = x) := by
  have unrooted : x ∉ R := fun member => fresh ⟨x, [], member, closed [] p' isValid', rfl⟩
  rcases Set.mem_insert_iff.mp root' with rfl | old
  · rw [or_iff_right fun both => unrooted both.1]
    cases p' with
    | nil =>
      simp only [walk, Option.some.injEq, true_and]
      exact eq_comm
    | cons j s =>
      rw [walk, plant.blank j (closed [j] s isValid'), Option.bind_none]
      simp
  · have same : walk target T' r' p' = walk target T r' p' := by
      refine walk_congr fun q j s u split here => plant.others u j fun equal => fresh ?_
      exact ⟨r', q, old, closed q (j :: s) (split ▸ isValid'), equal ▸ here⟩
    rw [same, or_iff_left (fun new : r' = x ∧ p' = [] ∧ y = x => unrooted (new.1 ▸ old))]
    exact (and_iff_right old).symm

theorem Owned.attach (owned : Owned target valid T R used pend) {r : F} {p : List I} {i : I} {t x : F}
    (attach : Attach target valid T T' R r p i t x) (fresh : ¬Placed target valid T R x)
    (grows : ∀ f, used f → used' f) (taken : used' x) (fewer : ∀ f ∈ pend', f ∈ pend ∧ f ≠ x) :
    Owned target valid T' R used' pend' := by
  have walks (r' : F) (p' : List I) (y : F) (root' : r' ∈ R) (isValid' : valid p')
      (reached : walk target T' r' p' = some y) :
      (r' ∈ R ∧ walk target T r' p' = some y) ∨ (r' = r ∧ p' = p ++ [i] ∧ y = x) :=
    ((owned.walk_attach closed attach fresh root' isValid' y).mp reached).imp_left fun old => ⟨root', old⟩
  exact owned.extend walks fresh grows taken fewer

theorem Owned.detach (owned : Owned target valid T R used pend) {r : F} {p : List I} {i : I} {t x : F}
    (detach : Detach target valid T T' R r p i t x) : Owned target valid T' R used (insert x pend) := by
  have walks {r' : F} {p' : List I} (root' : r' ∈ R) (isValid' : valid p') (y : F) :=
    owned.walk_detach closed detach root' isValid' y
  have here : walk target T r (p ++ [i]) = some x := by
    rw [walk_through detach.reached, detach.entry]
    rfl
  have placed (f : F) (placed : Placed target valid T' R f) : Placed target valid T R f := by
    obtain ⟨r', p', root', isValid', reached⟩ := placed
    exact ⟨r', p', root', isValid', ((walks root' isValid' f).mp reached).1⟩
  refine ⟨fun {r1 r2 p1 p2 f} root1 root2 valid1 valid2 reached1 reached2 => ?_,
    fun f member => owned.placed f (placed f member), fun f member => ?_⟩
  · exact owned.exclusive root1 root2 valid1 valid2 ((walks root1 valid1 f).mp reached1).1
      ((walks root2 valid2 f).mp reached2).1
  · rcases Set.mem_insert_iff.mp member with rfl | old
    · refine ⟨owned.placed f ⟨r, _, detach.root, detach.isValid, here⟩, ?_⟩
      rintro ⟨r', p', root', isValid', reached⟩
      obtain ⟨before, apart⟩ := (walks root' isValid' f).mp reached
      exact apart (owned.exclusive root' detach.root isValid' detach.isValid before here)
    · exact ⟨(owned.pending f old).1, fun there => (owned.pending f old).2 (placed f there)⟩

theorem Owned.plant (owned : Owned target valid T R used pend) {x : F} (plant : Plant target valid T T' x)
    (fresh : ¬Placed target valid T R x) (grows : ∀ f, used f → used' f) (taken : used' x)
    (fewer : ∀ f ∈ pend', f ∈ pend ∧ f ≠ x) : Owned target valid T' (insert x R) used' pend' :=
  owned.extend (fun _ _ y root' isValid' reached => (walk_plant closed plant fresh root' isValid' y).mp reached)
    fresh grows taken fewer

end Edits

end Owned

end Forest
