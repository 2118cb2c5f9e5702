import Mathlib.Algebra.Ring.Nat
import Mathlib.Data.Nat.Basic
import Mathlib.Order.Fin.Basic

/-- Physical memory: a byte at every address. -/
abbrev Mem := Nat → UInt8

namespace Mem

/-- The little-endian number in the `n` bytes at `a`. -/
def load (m : Mem) (a n : Nat) : Nat :=
  match n with
  | 0 => 0
  | n + 1 => (m a).toNat + 256 * load m (a + 1) n

def store (m : Mem) (a n value : Nat) : Mem := fun x =>
  if a ≤ x ∧ x < a + n then UInt8.ofNat (value / 256 ^ (x - a)) else m x

theorem load_congr {m m' : Mem} {a n : Nat} (same : ∀ x, a ≤ x → x < a + n → m' x = m x) :
    load m' a n = load m a n := by
  induction n generalizing a with
  | zero => rfl
  | succ n ih =>
    rw [load, load, same a (Nat.le_refl a) (by omega), ih fun x lower upper => same x (by omega) (by omega)]

theorem load_shift {m m' : Mem} {a n d : Nat} (same : ∀ x, a ≤ x → x < a + n → m' x = m (x + d)) :
    load m' a n = load m (a + d) n := by
  induction n generalizing a with
  | zero => rfl
  | succ n ih =>
    rw [load, load, same a (Nat.le_refl a) (by omega), ih fun x lower upper => same x (by omega) (by omega),
      Nat.add_right_comm]

theorem load_store (m : Mem) (a n value : Nat) : load (store m a n value) a n = value % 256 ^ n := by
  induction n generalizing m a value with
  | zero => simp [load, Nat.mod_one]
  | succ n ih =>
    have first : (store m a (n + 1) value a).toNat = value % 256 := by
      rw [store, if_pos (by omega), Nat.sub_self, Nat.pow_zero, Nat.div_one, UInt8.toNat_ofNat']
    have rest : load (store m a (n + 1) value) (a + 1) n = load (store m (a + 1) n (value / 256)) (a + 1) n := by
      refine load_congr fun x lower upper => ?_
      have next : x - a = x - (a + 1) + 1 := by omega
      rw [store, store, if_pos (by omega), if_pos (by omega), next, Nat.pow_succ', Nat.div_div_eq_div_mul]
    rw [load, first, rest, ih, Nat.pow_succ', Nat.mod_mul]

/-- The number determines the bytes. -/
theorem eq_of_load {m m' : Mem} {a n x : Nat} (same : load m' a n = load m a n) (lower : a ≤ x) (upper : x < a + n) :
    m' x = m x := by
  induction n generalizing a with
  | zero => omega
  | succ n ih =>
    have new := (m' a).toNat_lt
    have old := (m a).toNat_lt
    rw [load, load] at same
    rcases Nat.eq_or_lt_of_le lower with rfl | above
    · exact UInt8.toNat_inj.mp (by omega)
    · have rest : load m' (a + 1) n = load m (a + 1) n := by omega
      exact ih rest above (by omega)

theorem load_lt (m : Mem) (a n : Nat) : m.load a n < 256 ^ n := by
  induction n generalizing a with
  | zero => exact Nat.one_pos
  | succ n ih =>
    have byte := (m a).toNat_lt
    have rest := ih (a + 1)
    rw [load, Nat.pow_succ]
    omega

/-- The lowest bytes of a number are the first ones. -/
theorem load_mod (m : Mem) (a : Nat) {k n : Nat} (le : k ≤ n) : m.load a n % 256 ^ k = m.load a k := by
  induction k generalizing a n with
  | zero => simp [load, Nat.mod_one]
  | succ k ih =>
    obtain ⟨n, rfl⟩ : ∃ n', n = n' + 1 := ⟨n - 1, by omega⟩
    have byte := (m a).toNat_lt
    have next := ih (a + 1) (Nat.le_of_succ_le_succ le)
    have first : ((m a).toNat + 256 * m.load (a + 1) n) / 256 = m.load (a + 1) n := by omega
    rw [load, load, Nat.pow_succ', Nat.mod_mul, first, next]
    omega

instance entries_pos : NeZero 512 := ⟨by decide⟩

/-- Entry `i` of the 512 entries of eight bytes in a frame of 4096 bytes. -/
def entry (m : Mem) (frame : Nat) (i : Fin 512) : Nat := load m (frame * 4096 + i * 8) 8

def setEntry (m : Mem) (frame : Nat) (i : Fin 512) (value : Nat) : Mem := store m (frame * 4096 + i * 8) 8 value

def zeroFrame (m : Mem) (frame : Nat) : Mem := fun x => if x / 4096 = frame then 0 else m x

def copy (m : Mem) (a : Nat) (bytes : List UInt8) : Mem := fun x =>
  if a ≤ x ∧ x < a + bytes.length then bytes.getD (x - a) 0 else m x

theorem entry_lt (m : Mem) (frame : Nat) (i : Fin 512) : m.entry frame i < 2 ^ 64 := m.load_lt _ 8

theorem entry_congr {m m' : Mem} {frame : Nat} (same : ∀ x, x / 4096 = frame → m' x = m x) (i : Fin 512) :
    m'.entry frame i = m.entry frame i :=
  load_congr fun x lower upper => same x (by omega)

theorem eq_of_entries {m m' : Mem} {frame x : Nat} (same : ∀ i, m'.entry frame i = m.entry frame i)
    (inside : x / 4096 = frame) : m' x = m x := by
  have slot : x % 4096 / 8 < 512 := by omega
  exact eq_of_load (same ⟨x % 4096 / 8, slot⟩) (by dsimp only; omega) (by dsimp only; omega)

theorem setEntry_of_ne (m : Mem) {frame x : Nat} (i : Fin 512) (value : Nat) (apart : x / 4096 ≠ frame) :
    m.setEntry frame i value x = m x :=
  if_neg (by omega)

theorem entry_setEntry_self (m : Mem) (frame : Nat) (i : Fin 512) {value : Nat} (bound : value < 2 ^ 64) :
    (m.setEntry frame i value).entry frame i = value := by
  rw [entry, setEntry, load_store]
  exact Nat.mod_eq_of_lt bound

theorem entry_setEntry_of_ne (m : Mem) {frame other : Nat} {i j : Fin 512} (value : Nat)
    (apart : ¬(other = frame ∧ j = i)) : (m.setEntry frame i value).entry other j = m.entry other j := by
  refine load_congr fun x lower upper => if_neg fun inside => ?_
  refine apart ⟨by omega, Fin.ext ?_⟩
  omega

theorem entry_setEntry (m : Mem) (frame : Nat) (i : Fin 512) {value : Nat} (bound : value < 2 ^ 64) (other : Nat)
    (j : Fin 512) : (m.setEntry frame i value).entry other j = if other = frame ∧ j = i then value else m.entry other j := by
  split
  · rename_i here
    rw [here.1, here.2, entry_setEntry_self m frame i bound]
  · rename_i apart
    exact entry_setEntry_of_ne m value apart

/-- A loop that writes entries of one table. -/
theorem entry_foldl (is : List (Fin 512)) (frame : Nat) {f : Fin 512 → Nat} (bound : ∀ i, f i < 2 ^ 64) (m : Mem)
    (other : Nat) (j : Fin 512) :
    (is.foldl (fun m i => m.setEntry frame i (f i)) m).entry other j =
      if other = frame ∧ j ∈ is then f j else m.entry other j := by
  induction is generalizing m with
  | nil => rw [List.foldl_nil, if_neg fun both => absurd both.2 List.not_mem_nil]
  | cons i is ih =>
    rw [List.foldl_cons, ih, entry_setEntry _ _ _ (bound i)]
    by_cases table : other = frame
    · by_cases later : j ∈ is
      · rw [if_pos ⟨table, later⟩, if_pos ⟨table, List.mem_cons_of_mem i later⟩]
      · rw [if_neg fun both => later both.2]
        by_cases here : j = i
        · rw [if_pos ⟨table, here⟩, if_pos ⟨table, here ▸ List.mem_cons_self ..⟩, here]
        · rw [if_neg fun both => here both.2, if_neg fun both => (List.mem_cons.mp both.2).elim here later]
    · rw [if_neg fun both => table both.1, if_neg fun both => table both.1, if_neg fun both => table both.1]

theorem entry_clear (m : Mem) (frame : Nat) (i : Fin 512) (other : Nat) (j : Fin 512) :
    (m.setEntry frame i 0).entry other j = m.entry other j ∨ (m.setEntry frame i 0).entry other j = 0 := by
  by_cases here : other = frame ∧ j = i
  · obtain ⟨rfl, rfl⟩ := here
    exact Or.inr (entry_setEntry_self _ _ _ (by decide))
  · exact Or.inl (entry_setEntry_of_ne _ _ here)

theorem zeroFrame_of_ne (m : Mem) {frame x : Nat} (apart : x / 4096 ≠ frame) : m.zeroFrame frame x = m x :=
  if_neg apart

theorem entry_zeroFrame_of_ne (m : Mem) {frame other : Nat} (apart : other ≠ frame) (i : Fin 512) :
    (m.zeroFrame frame).entry other i = m.entry other i :=
  entry_congr (fun _ here => m.zeroFrame_of_ne (here ▸ apart)) i

theorem load_zero {m : Mem} {a n : Nat} (zero : ∀ x, a ≤ x → x < a + n → m x = 0) : load m a n = 0 := by
  induction n generalizing a with
  | zero => rfl
  | succ n ih =>
    rw [load, zero a (Nat.le_refl a) (by omega), ih fun x lower upper => zero x (by omega) (by omega)]
    rfl

theorem entry_zeroFrame_self (m : Mem) (frame : Nat) (i : Fin 512) : (m.zeroFrame frame).entry frame i = 0 :=
  load_zero fun x lower upper => if_pos (by omega)

theorem copy_inside (m : Mem) (a : Nat) (bytes : List UInt8) {k : Nat} (bound : k < bytes.length) :
    m.copy a bytes (a + k) = bytes.getD k 0 := by
  rw [copy, if_pos (by omega), Nat.add_sub_cancel_left]

theorem copy_outside (m : Mem) {a x : Nat} (bytes : List UInt8) (outside : ¬(a ≤ x ∧ x < a + bytes.length)) :
    m.copy a bytes x = m x :=
  if_neg outside

end Mem
