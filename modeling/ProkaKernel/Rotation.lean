import Mathlib.Data.List.Rotate

namespace Rotation
variable {α : Type}

/-- The items that a queue hands out in `n` turns, when the head goes to the
end after its turn. -/
def serve : List α → Nat → List α
  | _, 0 => []
  | [], _ => []
  | head :: rest, n + 1 => head :: serve (rest ++ [head]) n

@[simp] theorem serve_zero (queue : List α) : serve queue 0 = [] := by
  cases queue <;> rfl

@[simp] theorem serve_nil (n : Nat) : serve ([] : List α) n = [] := by
  cases n <;> rfl

theorem serve_succ (head : α) (rest : List α) (n : Nat) :
    serve (head :: rest) (n + 1) = head :: serve ((head :: rest).rotate 1) n := by
  rw [List.rotate_cons_succ, List.rotate_zero]
  rfl

theorem serve_length {queue : List α} (busy : queue ≠ []) (n : Nat) : (serve queue n).length = n := by
  induction n generalizing queue with
  | zero => rw [serve_zero, List.length_nil]
  | succ n ih =>
    cases queue with
    | nil => exact absurd rfl busy
    | cons head rest =>
      rw [serve_succ, List.length_cons, ih]
      rw [ne_eq, List.rotate_eq_nil_iff]
      exact busy

/-- Turns are cut in two by what the first of them leave as the queue. -/
theorem serve_add (queue : List α) (m n : Nat) : serve queue (m + n) = serve queue m ++ serve (queue.rotate m) n := by
  induction m generalizing queue with
  | zero => rw [Nat.zero_add, serve_zero, List.nil_append, List.rotate_zero]
  | succ m ih =>
    cases queue with
    | nil => rw [List.rotate_nil, serve_nil, serve_nil, serve_nil, List.append_nil]
    | cons head rest =>
      rw [show m + 1 + n = m + n + 1 by omega, serve_succ, serve_succ, ih, List.rotate_rotate, Nat.add_comm 1 m,
        List.cons_append]

theorem serve_prefix (front back : List α) : serve (front ++ back) front.length = front := by
  induction front generalizing back with
  | nil => rw [List.length_nil, serve_zero]
  | cons head front ih =>
    rw [List.length_cons, List.cons_append]
    change head :: serve (front ++ back ++ [head]) front.length = _
    rw [List.append_assoc, ih]

/-- One full round hands out every item once, in the order of the queue. -/
theorem serve_round (queue : List α) : serve queue queue.length = queue := by
  have round := serve_prefix queue []
  rwa [List.append_nil] at round

/-- Any stretch of turns as long as the queue is a full round. -/
theorem serve_window {queue : List α} {k n : Nat} (inside : k + queue.length ≤ n) :
    ((serve queue n).drop k).take queue.length = queue.rotate k := by
  cases queue with
  | nil => rw [serve_nil, List.drop_nil, List.take_nil, List.rotate_nil]
  | cons head rest =>
    obtain ⟨more, rfl⟩ := Nat.exists_eq_add_of_le inside
    have busy : head :: rest ≠ [] := List.cons_ne_nil head rest
    have round := serve_round ((head :: rest).rotate k)
    rw [List.length_rotate] at round
    rw [serve_add, serve_add, List.append_assoc, List.drop_left' (serve_length busy k), round,
      List.take_left' (List.length_rotate ..)]

/-- The turns follow the cyclic order of the queue. -/
theorem serve_getElem {queue : List α} {k n : Nat} (inside : k < n) :
    (serve queue n)[k]? = queue[k % queue.length]? := by
  cases queue with
  | nil => rw [serve_nil, List.getElem?_nil, List.getElem?_nil]
  | cons head rest =>
    obtain ⟨more, rfl⟩ := Nat.exists_eq_add_of_lt inside
    have busy : head :: rest ≠ [] := List.cons_ne_nil head rest
    have small : k % (head :: rest).length < (head :: rest).length := Nat.mod_lt _ (Nat.zero_lt_succ _)
    rw [Nat.add_assoc, serve_add, List.getElem?_append_right (Nat.le_of_eq (serve_length busy k)), serve_length busy,
      Nat.sub_self, ← List.rotate_mod, List.rotate_eq_drop_append_take (Nat.le_of_lt small),
      List.drop_eq_getElem_cons small]
    exact (List.getElem?_eq_getElem small).symm

/-- The queue has handed out these items, and is left rotated by as many. -/
structure Served (queue items queue' : List α) : Prop where
  order : items = serve queue items.length
  left : queue' = queue.rotate items.length

section
variable {queue queue' queue'' items items' : List α}

theorem Served.none (queue : List α) : Served queue [] queue where
  order := (serve_zero queue).symm
  left := (List.rotate_zero queue).symm

theorem Served.head (head : α) (rest : List α) : Served (head :: rest) [head] (rest ++ [head]) where
  order := by rw [List.length_singleton, serve_succ, serve_zero]
  left := by rw [List.length_singleton, List.rotate_cons_succ, List.rotate_zero]

theorem Served.trans (first : Served queue items queue') (later : Served queue' items' queue'') :
    Served queue (items ++ items') queue'' where
  order := by rw [List.length_append, serve_add, ← first.order, ← first.left, ← later.order]
  left := by rw [List.length_append, ← List.rotate_rotate, ← first.left, later.left]

theorem Served.getElem (served : Served queue items queue') {k : Nat} (inside : k < items.length) :
    items[k]? = queue[k % queue.length]? := by
  rw [served.order]
  exact serve_getElem inside

theorem Served.window (served : Served queue items queue') {k : Nat} (inside : k + queue.length ≤ items.length) :
    (items.drop k).take queue.length = queue.rotate k := by
  rw [served.order]
  exact serve_window inside

end

end Rotation
