import Mathlib.Data.List.Basic

/-- A text terminal. The cursor may be behind the last column of its row, and on
the row below the last one. -/
@[ext]
structure Terminal (α : Type) (rows cols : Nat) where
  grid : Nat → Nat → α
  row : Nat := 0
  col : Nat := 0

namespace Terminal

section
variable {α : Type} {rows cols : Nat} (blank : α)

def scroll (t : Terminal α rows cols) : Terminal α rows cols where
  grid r c := if r + 1 < rows then t.grid (r + 1) c else blank
  row := t.row - 1
  col := t.col

/-- A row below the last one is brought onto the screen. -/
def settle (t : Terminal α rows cols) : Terminal α rows cols := if t.row < rows then t else t.scroll blank

def newline (t : Terminal α rows cols) : Terminal α rows cols :=
  { t.settle blank with row := (t.settle blank).row + 1, col := 0 }

/-- A full row is left for the next one. -/
def wrap (t : Terminal α rows cols) : Terminal α rows cols :=
  if t.col < cols then t else { t with row := t.row + 1, col := 0 }

def draw (t : Terminal α rows cols) (a : α) : Terminal α rows cols :=
  { t with grid := fun r c => if r = t.row ∧ c = t.col then a else t.grid r c, col := t.col + 1 }

def put (t : Terminal α rows cols) (a : α) : Terminal α rows cols := (((t.settle blank).wrap).settle blank).draw a

/-- One character; `none` is the end of a line. -/
def type (t : Terminal α rows cols) : Option α → Terminal α rows cols
  | none => t.newline blank
  | some a => t.put blank a

def run (t : Terminal α rows cols) (input : List (Option α)) : Terminal α rows cols := input.foldl (type blank) t

/-- A terminal that does not scroll when a row is full, only before the next
character. -/
def putLate (t : Terminal α rows cols) (a : α) : Terminal α rows cols := ((t.settle blank).wrap).draw a

def typeLate (t : Terminal α rows cols) : Option α → Terminal α rows cols
  | none => t.newline blank
  | some a => t.putLate blank a

def runLate (t : Terminal α rows cols) (input : List (Option α)) : Terminal α rows cols := input.foldl (typeLate blank) t

end

/-- The rows that a line of `n` characters takes. -/
def lineRows (cols n : Nat) : Nat := (n - 1) / cols + 1

/-- Every line that does not fit in one row ends on the first `rows` rows, when
the first line starts on row `start`. -/
def LongLinesFit (rows cols : Nat) : Nat → List Nat → Prop
  | _, [] => True
  | start, n :: rest =>
    (cols < n → start + lineRows cols n ≤ rows) ∧ LongLinesFit rows cols (start + lineRows cols n) rest

/-- The lengths of the lines of a text. -/
def lineLengths {β : Type} (newline : β → Bool) (text : List β) : List Nat := (text.splitOnP newline).map List.length

section
variable {β : Type} {newline : β → Bool} {x : β}

theorem lineLengths_newline {text : List β} (ends : newline x = true) :
    lineLengths newline (x :: text) = 0 :: lineLengths newline text := by
  rw [lineLengths, List.splitOnP_cons_eq_if_modifyHead, if_pos ends]
  rfl

theorem lineLengths_char (text : List β) (inside : newline x = false) :
    ∃ n rest, lineLengths newline text = n :: rest ∧ lineLengths newline (x :: text) = (n + 1) :: rest := by
  unfold lineLengths
  rw [List.splitOnP_cons_eq_if_modifyHead, inside]
  cases lines : text.splitOnP newline with
  | nil => exact absurd lines (List.splitOnP_ne_nil _ _)
  | cons line rest => exact ⟨line.length, rest.map List.length, rfl, rfl⟩

theorem lineLengths_map {γ : Type} {f : γ → β} {newline' : γ → Bool} (same : ∀ c, newline (f c) = newline' c)
    (text : List γ) : lineLengths newline (text.map f) = lineLengths newline' text := by
  induction text with
  | nil => rfl
  | cons c text ih =>
    rw [List.map_cons]
    cases ends : newline (f c) with
    | true => rw [lineLengths_newline ends, lineLengths_newline ((same c).symm.trans ends), ih]
    | false =>
      obtain ⟨n, rest, lengths, more⟩ := lineLengths_char (text.map f) ends
      obtain ⟨n', rest', lengths', more'⟩ := lineLengths_char text ((same c).symm.trans ends)
      rw [ih, lengths'] at lengths
      cases lengths
      rw [more, more']

end

/-- The same when some characters of the first line are already printed. -/
def FitsFrom (rows cols start printed : Nat) (lengths : List Nat) : Prop :=
  LongLinesFit rows cols start (lengths.modifyHead (printed + ·))

section
variable {rows cols start printed n : Nat} {rest lengths : List Nat}

theorem fitsFrom_zero : FitsFrom rows cols start 0 lengths ↔ LongLinesFit rows cols start lengths := by
  cases lengths with
  | nil => exact Iff.rfl
  | cons n rest => simp only [FitsFrom, List.modifyHead_cons, Nat.zero_add]

theorem fitsFrom_newline : FitsFrom rows cols start printed (0 :: rest) ↔
    (cols < printed → start + lineRows cols printed ≤ rows) ∧ FitsFrom rows cols (start + lineRows cols printed) 0 rest := by
  rw [fitsFrom_zero]
  exact Iff.rfl

theorem fitsFrom_char :
    FitsFrom rows cols start printed ((n + 1) :: rest) ↔ FitsFrom rows cols start (printed + 1) (n :: rest) := by
  simp only [FitsFrom, List.modifyHead_cons, Nat.add_assoc, Nat.add_comm 1 n]

end

instance decideLongLinesFit (rows cols : Nat) : (start : Nat) → (lengths : List Nat) →
    Decidable (LongLinesFit rows cols start lengths)
  | _, [] => isTrue trivial
  | start, n :: rest =>
    have := decideLongLinesFit rows cols (start + lineRows cols n) rest
    inferInstanceAs (Decidable (_ ∧ _))

theorem lineRows_eq {cols j c : Nat} (positive : 0 < cols) (inside : c ≤ cols) (first : c = 0 → j = 0) :
    lineRows cols (j * cols + c) = j + 1 := by
  unfold lineRows
  cases c with
  | zero =>
    rw [first rfl]
    simp
  | succ c =>
    rw [← Nat.add_assoc, Nat.add_sub_cancel, Nat.add_comm (j * cols), Nat.add_mul_div_right _ _ positive,
      Nat.div_eq_of_lt inside, Nat.zero_add]

theorem lineRows_mono (cols : Nat) {n n' : Nat} (le : n ≤ n') : lineRows cols n ≤ lineRows cols n' := by
  unfold lineRows
  exact Nat.succ_le_succ (Nat.div_le_div_right (Nat.sub_le_sub_right le 1))

/-- The cursor is on row `j` of a line that starts on row `start`, on a page
without a bottom; the line so far does not end below row `rows`, if it is long. -/
structure At {α : Type} {rows cols : Nat} (t : Terminal α rows cols) (start j : Nat) : Prop where
  row : min t.row (rows - 1) = min (start + j) (rows - 1)
  below : t.row ≤ rows
  inside : t.col ≤ cols
  first : t.col = 0 → j = 0
  fits : 0 < j → start + j < rows

section
variable {α : Type} {rows cols start j : Nat} {blank : α} {t : Terminal α rows cols}

theorem settle_col (blank : α) (t : Terminal α rows cols) : (t.settle blank).col = t.col := by
  unfold settle
  split <;> rfl

theorem settle_row (blank : α) (positive : 0 < rows) (below : t.row ≤ rows) : (t.settle blank).row = min t.row (rows - 1) := by
  unfold settle
  split
  · omega
  · show t.row - 1 = _
    omega

theorem settle_of_lt (inside : t.row < rows) : t.settle blank = t := if_pos inside

theorem At.newline (here : At t start j) (positive : 0 < rows) (blank : α) : At (t.newline blank) (start + (j + 1)) 0 := by
  have row := settle_row blank positive here.below
  have same := here.row
  refine ⟨?_, ?_, Nat.zero_le _, fun _ => rfl, fun none => absurd none (Nat.lt_irrefl 0)⟩
  · show min ((t.settle blank).row + 1) (rows - 1) = _
    omega
  · show (t.settle blank).row + 1 ≤ rows
    omega

/-- A character in a row that is not full. -/
theorem At.put_inside (here : At t start j) (positive : 0 < rows) (room : t.col < cols) (a : α) :
    t.putLate blank a = t.put blank a ∧ At (t.put blank a) start j ∧ (t.put blank a).col = t.col + 1 := by
  have row := settle_row blank positive here.below
  have col := settle_col blank t
  have same := here.row
  have fits := here.fits
  have stays : (t.settle blank).wrap = t.settle blank := if_pos (by omega)
  have settled : (t.settle blank).settle blank = t.settle blank := settle_of_lt (by omega)
  have drawn : t.put blank a = (t.settle blank).draw a := by rw [put, stays, settled]
  have after : (t.put blank a).row = (t.settle blank).row ∧ (t.put blank a).col = (t.settle blank).col + 1 := by
    rw [drawn]
    exact ⟨rfl, rfl⟩
  refine ⟨by rw [drawn, putLate, stays], ⟨?_, ?_, ?_, ?_, fits⟩, ?_⟩
  all_goals omega

theorem wrap_full (full : cols ≤ t.col) (blank : α) :
    (t.settle blank).wrap = { t.settle blank with row := (t.settle blank).row + 1, col := 0 } := by
  have col := settle_col blank t
  exact if_neg (by omega)

/-- A character after a full row that is not the last one. -/
theorem At.put_wrap (here : At t start j) (positive : 0 < rows) (one : 0 < cols) (full : cols ≤ t.col)
    (room : start + j + 1 < rows) (a : α) :
    t.putLate blank a = t.put blank a ∧ At (t.put blank a) start (j + 1) ∧ (t.put blank a).col = 1 := by
  have row := settle_row blank positive here.below
  have same := here.row
  have settled : ((t.settle blank).wrap).settle blank = (t.settle blank).wrap := by
    rw [wrap_full full]
    exact settle_of_lt (show (t.settle blank).row + 1 < rows by omega)
  have drawn : t.put blank a = ((t.settle blank).wrap).draw a := by rw [put, settled]
  have after : (t.put blank a).row = (t.settle blank).row + 1 ∧ (t.put blank a).col = 1 := by
    rw [drawn, wrap_full full]
    exact ⟨rfl, rfl⟩
  refine ⟨drawn.symm, ⟨?_, ?_, ?_, ?_, fun _ => room⟩, after.2⟩
  all_goals omega

/-- A character after the last row, when it is full. -/
theorem At.put_late (here : At t start j) (positive : 0 < rows) (full : cols ≤ t.col) (last : rows ≤ start + j + 1) (a : α) :
    (t.putLate blank a).row ≠ (t.put blank a).row := by
  have row := settle_row blank positive here.below
  have same := here.row
  have late : (t.putLate blank a).row = (t.settle blank).row + 1 := by
    rw [putLate, wrap_full full]
    rfl
  have next : (t.put blank a).row = min ((t.settle blank).row + 1) (rows - 1) := by
    show (((t.settle blank).wrap).settle blank).row = _
    rw [wrap_full full]
    exact settle_row blank positive (show (t.settle blank).row + 1 ≤ rows by omega)
  omega

/-- Both terminals do the same with a character, or the late one falls behind
because the last row is full. -/
theorem At.put_cases (here : At t start j) (positive : 0 < rows) (one : 0 < cols) (blank a : α) :
    (t.putLate blank a = t.put blank a ∧ ∃ j', At (t.put blank a) start j' ∧
      j' * cols + (t.put blank a).col = j * cols + t.col + 1) ∨
    ((t.putLate blank a).row ≠ (t.put blank a).row ∧
      ∀ n rest, ¬FitsFrom rows cols start (j * cols + t.col) ((n + 1) :: rest)) := by
  by_cases room : t.col < cols
  · obtain ⟨same, next, col⟩ := here.put_inside positive room a
    exact Or.inl ⟨same, j, next, by omega⟩
  · have full : t.col = cols := Nat.le_antisymm here.inside (Nat.le_of_not_lt room)
    by_cases last : start + j + 1 < rows
    · obtain ⟨same, next, col⟩ := here.put_wrap positive one (Nat.le_of_not_lt room) last a
      refine Or.inl ⟨same, j + 1, next, ?_⟩
      rw [col, full, Nat.succ_mul]
    · refine Or.inr ⟨here.put_late positive (Nat.le_of_not_lt room) (Nat.le_of_not_lt last) a, fun n rest fits => ?_⟩
      have total : j * cols + t.col + (n + 1) = (j + 1) * cols + 1 + n := by
        rw [full, Nat.succ_mul]
        omega
      have long : cols < (j + 1) * cols + 1 + n := by
        rw [Nat.succ_mul]
        omega
      have ends : cols < j * cols + t.col + (n + 1) → start + lineRows cols (j * cols + t.col + (n + 1)) ≤ rows := fits.1
      have more := lineRows_mono cols (Nat.le_add_right ((j + 1) * cols + 1) n)
      rw [lineRows_eq one one fun none => by omega] at more
      rw [total] at ends
      have wrong := ends long
      omega

/-- Without a long line at the bottom the late terminal is never late. -/
theorem At.runLate_eq (here : At t start j) (positive : 0 < rows) (one : 0 < cols) {input : List (Option α)}
    (fits : FitsFrom rows cols start (j * cols + t.col) (lineLengths Option.isNone input))
    {p : List (Option α)} (before : p <+: input) : runLate blank t p = run blank t p := by
  induction input generalizing t start j p with
  | nil =>
    rw [List.prefix_nil.mp before]
    rfl
  | cons x input ih =>
    rcases List.prefix_cons_iff.mp before with rfl | ⟨q, rfl, later⟩
    · rfl
    · cases x with
      | none =>
        rw [lineLengths_newline rfl, fitsFrom_newline, lineRows_eq one here.inside here.first] at fits
        refine ih (here.newline positive blank) ?_ later
        show FitsFrom rows cols _ (0 * cols + 0) _
        rw [Nat.zero_mul]
        exact fits.2
      | some a =>
        obtain ⟨n, rest, lengths, more⟩ := lineLengths_char input (show (some a).isNone = false from rfl)
        rw [more] at fits
        rcases here.put_cases positive one blank a with ⟨same, j', next, count⟩ | ⟨_, unfit⟩
        · show runLate blank (t.putLate blank a) q = run blank (t.put blank a) q
          rw [same]
          refine ih next ?_ later
          rw [lengths, count]
          exact fitsFrom_char.mp fits
        · exact absurd fits (unfit n rest)

theorem At.long_fits (here : At t start j) (long : cols < j * cols + t.col) : start + (j + 1) ≤ rows := by
  refine here.fits (Nat.pos_of_ne_zero fun none => ?_)
  have inside := here.inside
  rw [none, Nat.zero_mul] at long
  omega

/-- A long line at the bottom is where the late terminal is late. -/
theorem At.fits_of_runLate (here : At t start j) (positive : 0 < rows) (one : 0 < cols) (blank : α)
    {input : List (Option α)} (agree : ∀ p, p <+: input → (runLate blank t p).row = (run blank t p).row) :
    FitsFrom rows cols start (j * cols + t.col) (lineLengths Option.isNone input) := by
  induction input generalizing t start j with
  | nil =>
    refine ⟨fun long => ?_, trivial⟩
    change cols < j * cols + t.col at long
    show start + lineRows cols (j * cols + t.col) ≤ rows
    rw [lineRows_eq one here.inside here.first]
    exact here.long_fits long
  | cons x input ih =>
    have later (p : List (Option α)) (before : p <+: input) := agree (x :: p) (List.cons_prefix_cons.mpr ⟨rfl, before⟩)
    cases x with
    | none =>
      rw [lineLengths_newline rfl, fitsFrom_newline, lineRows_eq one here.inside here.first]
      have next : FitsFrom rows cols _ (0 * cols + 0) _ := ih (here.newline positive blank) later
      rw [Nat.zero_mul] at next
      exact ⟨here.long_fits, next⟩
    | some a =>
      obtain ⟨n, rest, lengths, more⟩ := lineLengths_char input (show (some a).isNone = false from rfl)
      rw [more]
      rcases here.put_cases positive one blank a with ⟨same, j', next, count⟩ | ⟨late, _⟩
      · have fits := ih next fun p before => by
          have rows := later p before
          change (runLate blank (t.putLate blank a) p).row = _ at rows
          rw [same] at rows
          exact rows
        rw [lengths, count] at fits
        exact fitsFrom_char.mpr fits
      · exact absurd (later [] List.nil_prefix) late

end

end Terminal
