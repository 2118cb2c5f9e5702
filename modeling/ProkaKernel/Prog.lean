/-- Programs over a state. They return a value or an error, and in both cases
the state they leave behind counts; `none` is a panic, after which nothing
runs any more. -/
def Prog (σ ε α : Type) : Type := σ → Option (Except ε α × σ)

namespace Prog

variable {σ ε α β : Type}

def bind (x : Prog σ ε α) (f : α → Prog σ ε β) : Prog σ ε β := fun s =>
  match x s with
  | none => none
  | some (.error e, s') => some (.error e, s')
  | some (.ok a, s') => f a s'

instance : Monad (Prog σ ε) where
  pure a := fun s => some (.ok a, s)
  bind := bind

/-- Leave with an error. -/
def fail (e : ε) : Prog σ ε α := fun s => some (.error e, s)

def abort : Prog σ ε α := fun _ => none

def read (f : σ → α) : Prog σ ε α := fun s => some (.ok (f s), s)

def write (f : σ → σ) : Prog σ ε Unit := fun s => some (.ok (), f s)

/-- The unwrapping of an option whose absence is a panic. -/
def unwrap : Option α → Prog σ ε α
  | some a => pure a
  | none => abort

/-- The unwrapping of an option whose absence is an error. -/
def orFail (e : ε) : Option α → Prog σ ε α
  | some a => pure a
  | none => fail e

/-- Run a program, and then change the state whether it returned or failed. -/
def ensure (x : Prog σ ε α) (last : σ → σ) : Prog σ ε α := fun s => (x s).map fun out => (out.1, last out.2)

/-- Run a program on a part of the state. -/
def within {τ : Type} (part : τ → σ) (put : τ → σ → τ) (x : Prog σ ε α) : Prog τ ε α := fun t =>
  (x (part t)).map fun out => (out.1, put t out.2)

theorem bind_ok {x : Prog σ ε α} {f : α → Prog σ ε β} {s s' : σ} {a : α} (run : x s = some (.ok a, s')) :
    (x >>= f) s = f a s' := by
  change bind x f s = f a s'
  unfold bind
  rw [run]

theorem bind_error {x : Prog σ ε α} {f : α → Prog σ ε β} {s s' : σ} {e : ε} (run : x s = some (.error e, s')) :
    (x >>= f) s = some (.error e, s') := by
  change bind x f s = some (.error e, s')
  unfold bind
  rw [run]

theorem bind_none {x : Prog σ ε α} (f : α → Prog σ ε β) {s : σ} (run : x s = none) : (x >>= f) s = none := by
  change bind x f s = none
  unfold bind
  rw [run]

theorem read_bind (f : σ → α) (g : α → Prog σ ε β) (s : σ) : (read f >>= g) s = g (f s) s := rfl

theorem write_bind (f : σ → σ) (g : Unit → Prog σ ε β) (s : σ) : (write f >>= g) s = g () (f s) := rfl

theorem unwrap_bind (a : α) (f : α → Prog σ ε β) (s : σ) : (unwrap (some a) >>= f) s = f a s := rfl

theorem bind_assoc {γ : Type} (x : Prog σ ε α) (f : α → Prog σ ε β) (g : β → Prog σ ε γ) :
    (x >>= f) >>= g = x >>= fun a => f a >>= g := by
  funext s
  change bind (bind x f) g s = bind x (fun a => bind (f a) g) s
  unfold bind
  cases x s with
  | none => rfl
  | some both =>
    obtain ⟨result, s'⟩ := both
    cases result <;> rfl

/-- How the program ends from `s`: it returns with `Q`, it fails with `E`, or it
panics, and then `P`. -/
def ends (x : Prog σ ε α) (Q : α → σ → Prop) (E : ε → σ → Prop) (P : Prop) (s : σ) : Prop :=
  match x s with
  | none => P
  | some (.ok a, s') => Q a s'
  | some (.error e, s') => E e s'

/-- The weakest precondition: from `s` the program panics, or it returns with
`Q`, or it fails with `E`. -/
def wp (x : Prog σ ε α) (Q : α → σ → Prop) (E : ε → σ → Prop) (s : σ) : Prop :=
  match x s with
  | none => True
  | some (.ok a, s') => Q a s'
  | some (.error e, s') => E e s'

section Ends
variable {Q Q' : α → σ → Prop} {R : β → σ → Prop} {E E' : ε → σ → Prop} {P P' : Prop} {s : σ}

theorem ends_pure {a : α} (done : Q a s) : ends (pure a : Prog σ ε α) Q E P s := done

theorem ends_fail {e : ε} (done : E e s) : ends (fail e : Prog σ ε α) Q E P s := done

theorem ends_abort (panics : P) : ends (abort : Prog σ ε α) Q E P s := panics

theorem ends_read {f : σ → α} (done : Q (f s) s) : ends (read f : Prog σ ε α) Q E P s := done

theorem ends_write {f : σ → σ} {Q : Unit → σ → Prop} (done : Q () (f s)) : ends (write f : Prog σ ε Unit) Q E P s := done

theorem ends_unwrap {value : Option α} (done : ∀ a, value = some a → Q a s) (missing : value = none → P) :
    ends (unwrap value : Prog σ ε α) Q E P s := by
  cases value with
  | none => exact missing rfl
  | some a => exact done a rfl

theorem ends_orFail {value : Option α} {e : ε} (done : ∀ a, value = some a → Q a s) (missing : value = none → E e s) :
    ends (orFail e value) Q E P s := by
  cases value with
  | none => exact missing rfl
  | some a => exact done a rfl

theorem ends_bind {x : Prog σ ε α} {f : α → Prog σ ε β} (first : ends x (fun a => ends (f a) R E P) E P s) :
    ends (x >>= f) R E P s := by
  change ends (bind x f) R E P s
  unfold ends bind at *
  cases out : x s with
  | none =>
    rw [out] at first
    exact first
  | some both =>
    obtain ⟨result, s'⟩ := both
    rw [out] at first
    cases result <;> exact first

theorem ends_ensure {x : Prog σ ε α} {last : σ → σ}
    (first : ends x (fun a s' => Q a (last s')) (fun e s' => E e (last s')) P s) : ends (ensure x last) Q E P s := by
  unfold ends ensure at *
  cases out : x s with
  | none =>
    rw [out] at first
    exact first
  | some both =>
    obtain ⟨result, s'⟩ := both
    rw [out] at first
    cases result <;> exact first

theorem ends_within {τ : Type} {part : τ → σ} {put : τ → σ → τ} {x : Prog σ ε α} {Q : α → τ → Prop} {E : ε → τ → Prop}
    {t : τ} (first : ends x (fun a s' => Q a (put t s')) (fun e s' => E e (put t s')) P (part t)) :
    ends (within part put x) Q E P t := by
  unfold ends within at *
  cases out : x (part t) with
  | none =>
    rw [out] at first
    exact first
  | some both =>
    obtain ⟨result, s'⟩ := both
    rw [out] at first
    cases result <;> exact first

theorem ends.mono {x : Prog σ ε α} (before : ends x Q E P s) (ok : ∀ a s', Q a s' → Q' a s')
    (error : ∀ e s', E e s' → E' e s') (panics : P → P') : ends x Q' E' P' s := by
  unfold ends at before ⊢
  split
  · rename_i out
    rw [out] at before
    exact panics before
  · rename_i a s' out
    rw [out] at before
    exact ok a s' before
  · rename_i e s' out
    rw [out] at before
    exact error e s' before

/-- What is known about the values and errors of a run. -/
theorem ends.and {x : Prog σ ε α} (first : ends x Q E P s) (second : wp x Q' E' s) :
    ends x (fun a s' => Q a s' ∧ Q' a s') (fun e s' => E e s' ∧ E' e s') P s := by
  unfold ends wp at *
  split
  · rename_i out
    rw [out] at first
    exact first
  · rename_i a s' out
    rw [out] at first second
    exact ⟨first, second⟩
  · rename_i e s' out
    rw [out] at first second
    exact ⟨first, second⟩

/-- A condition that holds just when the program panics. -/
theorem ends.panics_iff {x : Prog σ ε α} (before : ends x (fun _ _ => ¬P) (fun _ _ => ¬P) P s) : x s = none ↔ P := by
  unfold ends at before
  split at before
  · rename_i out
    exact iff_of_true out before
  · rename_i out
    exact iff_of_false (by rw [out]; exact Option.some_ne_none _) before
  · rename_i out
    exact iff_of_false (by rw [out]; exact Option.some_ne_none _) before

/-- A run that neither fails nor panics. -/
theorem ends.returns {x : Prog σ ε α} (before : ends x Q (fun _ _ => False) False s) :
    ∃ a s', x s = some (.ok a, s') ∧ Q a s' := by
  unfold ends at before
  split at before
  · exact before.elim
  · rename_i a s' out
    exact ⟨a, s', out, before⟩
  · exact before.elim

end Ends

section Rules
variable {Q Q' : α → σ → Prop} {R : β → σ → Prop} {E E' : ε → σ → Prop} {s s' : σ}

theorem wp_pure {a : α} (done : Q a s) : wp (pure a : Prog σ ε α) Q E s := done

theorem wp_bind {x : Prog σ ε α} {f : α → Prog σ ε β} (first : wp x (fun a => wp (f a) R E) E s) :
    wp (x >>= f) R E s :=
  ends_bind first

theorem wp_fail {e : ε} (done : E e s) : wp (fail e : Prog σ ε α) Q E s := done

/-- Nothing is said about errors, and the rest holds anyway. -/
theorem wp_any {x : Prog σ ε α} (done : ∀ a s', Q a s') : wp x Q (fun _ _ => True) s := by
  unfold wp
  split
  · trivial
  · exact done _ _
  · trivial

/-- Nothing is left to show about a path that ends in an error, if nothing is
said about errors. -/
theorem wp_then_fail {x : Prog σ ε α} {e : ε} : wp (x >>= fun _ => fail e) R (fun _ _ => True) s :=
  wp_bind (wp_any fun _ _ => trivial)

/-- A run ends as it does. -/
theorem wp_run (x : Prog σ ε α) (s : σ) :
    wp x (fun a s' => x s = some (.ok a, s')) (fun e s' => x s = some (.error e, s')) s := by
  unfold wp
  split
  · trivial
  · assumption
  · assumption

theorem wp_abort : wp (abort : Prog σ ε α) Q E s := trivial

theorem wp_read {f : σ → α} (done : Q (f s) s) : wp (read f : Prog σ ε α) Q E s := done

theorem wp_write {f : σ → σ} {Q : Unit → σ → Prop} (done : Q () (f s)) : wp (write f : Prog σ ε Unit) Q E s := done

theorem wp_unwrap {value : Option α} (done : ∀ a, value = some a → Q a s) :
    wp (unwrap value : Prog σ ε α) Q E s :=
  ends_unwrap done fun _ => trivial

theorem wp_orFail {value : Option α} {e : ε} (done : ∀ a, value = some a → Q a s) (missing : value = none → E e s) :
    wp (orFail e value) Q E s :=
  ends_orFail done missing

theorem wp_ensure {x : Prog σ ε α} {last : σ → σ} (first : wp x (fun a s' => Q a (last s')) (fun e s' => E e (last s')) s) :
    wp (ensure x last) Q E s :=
  ends_ensure first

theorem wp_within {τ : Type} {part : τ → σ} {put : τ → σ → τ} {x : Prog σ ε α} {Q : α → τ → Prop} {E : ε → τ → Prop} {t : τ}
    (first : wp x (fun a s' => Q a (put t s')) (fun e s' => E e (put t s')) (part t)) : wp (within part put x) Q E t :=
  ends_within first

/-- The rule of consequence. -/
theorem wp.mono {x : Prog σ ε α} (before : wp x Q E s) (ok : ∀ a s', Q a s' → Q' a s')
    (error : ∀ e s', E e s' → E' e s') : wp x Q' E' s :=
  ends.mono before ok error id

/-- Two facts about one run. -/
theorem wp.and {x : Prog σ ε α} (first : wp x Q E s) (second : wp x Q' E' s) :
    wp x (fun a s' => Q a s' ∧ Q' a s') (fun e s' => E e s' ∧ E' e s') s :=
  ends.and first second

theorem wp.ok {x : Prog σ ε α} {a : α} (before : wp x Q E s) (run : x s = some (.ok a, s')) : Q a s' := by
  unfold wp at before
  rw [run] at before
  exact before

theorem wp.error {x : Prog σ ε α} {e : ε} (before : wp x Q E s) (run : x s = some (.error e, s')) : E e s' := by
  unfold wp at before
  rw [run] at before
  exact before

theorem wp_of_ok {x : Prog σ ε α} (ok : ∀ a s', x s = some (.ok a, s') → Q a s') : wp x Q (fun _ _ => True) s := by
  unfold wp
  split
  · trivial
  · rename_i a s' out
    exact ok a s' out
  · trivial

end Rules

end Prog
