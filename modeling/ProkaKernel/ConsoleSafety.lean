import ProkaKernel.ConsoleParser

namespace ProkaKernel
open Console (isAsciiDigit)

namespace Framebuffer

/-- Room for one character at least. -/
structure Roomy (fb : Framebuffer) : Prop where
  wide : 8 ≤ fb.width
  high : 16 ≤ fb.height

/-- Where the cursor can be. -/
structure Holds (fb : Framebuffer) (position : Nat × Nat) : Prop where
  left : position.1 ≤ fb.width
  above : position.2 ≤ fb.height

/-- The row of the next character, in numbers without bounds. -/
def rowOf (fb : Framebuffer) (y : Nat) : Nat := if fb.height - y < 16 then fb.height - 16 else y

/-- The cell of the next character that is no newline. -/
def cellOf (fb : Framebuffer) (position : Nat × Nat) : Nat × Nat :=
  if fb.width < position.1 + 8 then (0, fb.rowOf position.2 + 16) else (position.1, fb.rowOf position.2)

def nextOf (fb : Framebuffer) (position : Nat × Nat) (c : Nat) : Nat × Nat :=
  if c = 10 then (0, fb.rowOf position.2 + 16) else ((fb.cellOf position).1 + 8, (fb.cellOf position).2)

/-- The character can be printed at all: the position of its right edge is a
number of 64 bits, and so are the places of its visible pixels, and it is in the
font if it has any. -/
structure Prints (fb : Framebuffer) (position : Nat × Nat) (c : Nat) : Prop where
  right : position.1 + 8 < 2 ^ 64
  bottom : (fb.cellOf position).2 + 15 < 2 ^ 64
  known : (fb.cellOf position).2 < fb.height → c < 128
  places : ∀ line < 16, ∀ i < 8, (fb.cellOf position).2 + line < fb.height →
    ((fb.cellOf position).2 + line) * fb.pitch + ((fb.cellOf position).1 + i) * fb.bpp < 2 ^ 64

/-- All characters of a text can be printed, from a position on. -/
def PrintsAll (fb : Framebuffer) : Nat × Nat → List Nat → Prop
  | _, [] => True
  | position, c :: cs => (c = 10 ∨ fb.Prints position c) ∧ PrintsAll fb (fb.nextOf position c) cs

section
variable {fb : Framebuffer} {position : Nat × Nat} {c : Nat}

theorem Roomy.row (roomy : fb.Roomy) (y : Nat) : fb.rowOf y + 16 ≤ fb.height := by
  have high := roomy.high
  unfold rowOf
  split <;> omega

theorem Roomy.cell (roomy : fb.Roomy) (position : Nat × Nat) :
    (fb.cellOf position).1 + 8 ≤ fb.width ∧ (fb.cellOf position).2 ≤ fb.height := by
  have row := roomy.row position.2
  have wide := roomy.wide
  unfold cellOf
  split
  · exact ⟨by omega, row⟩
  · exact ⟨by dsimp only; omega, by dsimp only; omega⟩

theorem Roomy.next (roomy : fb.Roomy) (position : Nat × Nat) (c : Nat) : fb.Holds (fb.nextOf position c) := by
  obtain ⟨left, above⟩ := roomy.cell position
  unfold nextOf
  split
  · exact ⟨Nat.zero_le _, roomy.row position.2⟩
  · exact ⟨left, above⟩

theorem settle_eq (overflow : Overflow) (holds : fb.Holds position) (roomy : fb.Roomy) :
    fb.settle overflow position.2 = some (decide (fb.height - position.2 < 16), fb.rowOf position.2) := by
  unfold settle rowOf fontH
  rw [overflow.sub_of_le 64 holds.above, overflow.sub_of_le 64 roomy.high]
  simp only [Option.bind_eq_bind, Option.bind_some]
  by_cases full : fb.height - position.2 < 16
  · simp [full]
  · simp [full]

theorem cellAt_eq (overflow : Overflow) (roomy : fb.Roomy) (right : position.1 + 8 < 2 ^ 64) :
    fb.cellAt overflow position.1 (fb.rowOf position.2) = some (fb.cellOf position) := by
  have row := roomy.row position.2
  have words := fb.words
  have below : overflow.fit 64 (fb.rowOf position.2 + 16) = some (fb.rowOf position.2 + 16) :=
    overflow.fit_of_lt (by omega)
  unfold cellAt cellOf fontH fontW
  rw [overflow.fit_of_lt right, below]
  simp only [Option.bind_eq_bind, Option.bind_some]
  split <;> rfl

/-- A character that is no newline is drawn in its cell, and the cursor is then
behind it. -/
theorem move_glyph (overflow : Overflow) (holds : fb.Holds position) (roomy : fb.Roomy) (newline : c ≠ 10) :
    fb.move overflow position c = (fb.cellAt overflow position.1 (fb.rowOf position.2)).bind fun cell =>
      (overflow.fit 64 (cell.1 + 8)).map fun x => ⟨decide (fb.height - position.2 < 16), some cell, (x, cell.2)⟩ := by
  unfold move
  rw [settle_eq overflow holds roomy]
  simp only [Option.bind_eq_bind, Option.bind_some, if_neg newline, fontW]
  cases fb.cellAt overflow position.1 (fb.rowOf position.2) with
  | none => rfl
  | some cell =>
    rw [Option.bind_some, Option.bind_some]
    cases overflow.fit 64 (cell.1 + 8) <;> rfl

/-- The arithmetic on the cursor does not overflow, but for the right edge of a
framebuffer that is too wide. -/
theorem move_eq (overflow : Overflow) (holds : fb.Holds position) (roomy : fb.Roomy)
    (right : c = 10 ∨ position.1 + 8 < 2 ^ 64) : fb.move overflow position c = some
      ⟨decide (fb.height - position.2 < 16), if c = 10 then none else some (fb.cellOf position), fb.nextOf position c⟩ := by
  have row := roomy.row position.2
  have words := fb.words
  obtain ⟨left, above⟩ := roomy.cell position
  by_cases newline : c = 10
  · unfold move
    rw [settle_eq overflow holds roomy]
    simp only [Option.bind_eq_bind, Option.bind_some, fontH, newline, if_true, nextOf]
    rw [overflow.fit_of_lt (by omega)]
    rfl
  · rw [move_glyph overflow holds roomy newline, cellAt_eq overflow roomy (right.resolve_left newline), Option.bind_some,
      overflow.fit_of_lt (by omega), Option.map_some, if_neg newline, nextOf, if_neg newline]

theorem move_panics (holds : fb.Holds position) (roomy : fb.Roomy) (newline : c ≠ 10) (wide : 2 ^ 64 ≤ position.1 + 8) :
    fb.move .panics position c = none := by
  rw [move_glyph .panics holds roomy newline, cellAt, fontW, Overflow.fit_panics wide]
  rfl

/-- Where a pixel is, in numbers without bounds. -/
theorem pixelAt_eq (overflow : Overflow) {startX startY line i : Nat} (left : startX + i < fb.width)
    (below : startY + line < 2 ^ 64)
    (place : startY + line < fb.height → (startY + line) * fb.pitch + (startX + i) * fb.bpp < 2 ^ 64) :
    fb.pixelAt overflow startX startY line i = some
      (if startY + line < fb.height then some ((startY + line) * fb.pitch + (startX + i) * fb.bpp) else none) := by
  have words := fb.words
  unfold pixelAt
  rw [overflow.fit_of_lt (by omega), overflow.fit_of_lt below]
  simp only [Option.bind_eq_bind, Option.bind_some, left, true_and]
  split
  · rename_i inside
    have small := place inside
    rw [overflow.fit_of_lt (by omega), Option.bind_some, overflow.fit_of_lt (by omega), Option.bind_some,
      overflow.fit_of_lt small, Option.bind_some]
    rfl
  · rfl

/-- A pixel that has no place in 64 bits. -/
theorem pixelAt_panics {startX startY line i : Nat} (left : startX + i < fb.width)
    (large : 2 ^ 64 ≤ startY + line ∨
      startY + line < fb.height ∧ 2 ^ 64 ≤ (startY + line) * fb.pitch + (startX + i) * fb.bpp) :
    fb.pixelAt .panics startX startY line i = none := by
  have words := fb.words
  unfold pixelAt
  rw [Overflow.fit_of_lt .panics (by omega)]
  simp only [Option.bind_eq_bind, Option.bind_some]
  by_cases low : 2 ^ 64 ≤ startY + line
  · rw [Overflow.fit_panics low]
    rfl
  · obtain ⟨visible, far⟩ := large.resolve_left low
    have inMemory := fb.inMemory
    have above := Nat.mul_le_mul_right fb.pitch visible.le
    rw [Overflow.fit_of_lt .panics (by omega), Option.bind_some, if_pos ⟨left, visible⟩,
      Overflow.fit_of_lt .panics (by omega), Option.bind_some]
    by_cases wide : 2 ^ 64 ≤ (startX + i) * fb.bpp
    · rw [Overflow.fit_panics wide]
      rfl
    · rw [Overflow.fit_of_lt .panics (by omega), Option.bind_some, Overflow.fit_panics far]
      rfl

theorem scrollMem_eq (overflow : Overflow) (roomy : fb.Roomy) (mem : Mem) : fb.scrollMem overflow mem = some
    (Console.clear (Console.moveDown mem (16 * fb.pitch) (fb.height * fb.pitch - 16 * fb.pitch))
      (fb.height * fb.pitch - 16 * fb.pitch) (16 * fb.pitch)) := by
  have inMemory := fb.inMemory
  have less : 16 * fb.pitch ≤ fb.height * fb.pitch := Nat.mul_le_mul_right _ roomy.high
  unfold scrollMem fontH
  rw [overflow.fit_of_lt (by omega), overflow.fit_of_lt inMemory]
  simp only [Option.bind_eq_bind, Option.bind_some, overflow.sub_of_le 64 less]
  rfl

theorem scrollIf_some (overflow : Overflow) (roomy : fb.Roomy) (scrolls : Bool) (mem : Mem) :
    ∃ mem', fb.scrollIf overflow scrolls mem = some mem' := by
  unfold scrollIf
  split
  · exact ⟨_, scrollMem_eq overflow roomy mem⟩
  · exact ⟨mem, rfl⟩

/-- When the lines of pixels fit into the pitch, only the font matters. -/
theorem prints_iff (holds : fb.Holds position) (roomy : fb.Roomy) (positive : 0 < fb.bpp)
    (pitch : fb.width * fb.bpp ≤ fb.pitch) : fb.Prints position c ↔ ((fb.cellOf position).2 < fb.height → c < 128) := by
  have inMemory := fb.inMemory
  have width : fb.width * 1 ≤ fb.width * fb.bpp := Nat.mul_le_mul_left _ positive
  have lines : 16 * fb.pitch ≤ fb.height * fb.pitch := Nat.mul_le_mul_right _ roomy.high
  have columns : fb.height * 8 ≤ fb.height * fb.pitch := Nat.mul_le_mul_left _ (by have := roomy.wide; omega)
  obtain ⟨left, above⟩ := roomy.cell position
  have inside := holds.left
  refine ⟨Prints.known, fun known => ⟨by omega, by omega, known, fun line short i narrow visible => ?_⟩⟩
  have row : ((fb.cellOf position).2 + line + 1) * fb.pitch ≤ fb.height * fb.pitch := Nat.mul_le_mul_right _ visible
  have column : ((fb.cellOf position).1 + i) * fb.bpp ≤ fb.width * fb.bpp := Nat.mul_le_mul_right _ (by omega)
  rw [Nat.succ_mul] at row
  omega

theorem printsAll_append {cs ds : List Nat} : fb.PrintsAll position (cs ++ ds) ↔
    fb.PrintsAll position cs ∧ fb.PrintsAll (cs.foldl fb.nextOf position) ds := by
  induction cs generalizing position with
  | nil => simp [PrintsAll]
  | cons c cs ih => simp only [List.cons_append, PrintsAll, List.foldl_cons, ih, and_assoc]

end

end Framebuffer

namespace Console

section
variable {con con' : Console} {c : Nat}

theorem pixelFits_panics {fb : Framebuffer} {startX startY line i : Nat} (left : startX + i < fb.width) :
    PixelFits .panics fb c startX startY line i ↔ startY + line < 2 ^ 64 ∧ (startY + line < fb.height →
      c < 128 ∧ (startY + line) * fb.pitch + (startX + i) * fb.bpp < 2 ^ 64) := by
  constructor
  · rintro ⟨place, found, known⟩
    have below : startY + line < 2 ^ 64 := by
      by_contra low
      rw [fb.pixelAt_panics left (.inl (Nat.le_of_not_lt low))] at found
      cases found
    have small : startY + line < fb.height → (startY + line) * fb.pitch + (startX + i) * fb.bpp < 2 ^ 64 := by
      intro visible
      by_contra far
      rw [fb.pixelAt_panics left (.inr ⟨visible, Nat.le_of_not_lt far⟩)] at found
      cases found
    refine ⟨below, fun visible => ⟨known ?_, small visible⟩⟩
    rw [fb.pixelAt_eq .panics left below small, if_pos visible] at found
    cases found
    exact Option.some_ne_none _
  · rintro ⟨below, visible⟩
    refine ⟨_, fb.pixelAt_eq .panics left below fun inside => (visible inside).2, fun drawn => ?_⟩
    by_cases inside : startY + line < fb.height
    · exact (visible inside).1
    · exact absurd (if_neg inside) drawn

theorem glyph_fits_iff (roomy : con.fb.Roomy) (right : con.position.1 + 8 < 2 ^ 64) :
    (∀ line < 16, ∀ i < 8, PixelFits .panics con.fb c (con.fb.cellOf con.position).1 (con.fb.cellOf con.position).2 line i) ↔
      con.fb.Prints con.position c := by
  obtain ⟨left, _⟩ := roomy.cell con.position
  constructor
  · intro fits
    have all : ∀ line < 16, ∀ i < 8, _ := fun line short i narrow =>
      (pixelFits_panics (by omega)).mp (fits line short i narrow)
    exact ⟨right, (all 15 (by decide) 0 (by decide)).1, fun visible => ((all 0 (by decide) 0 (by decide)).2 visible).1,
      fun line short i narrow visible => ((all line short i narrow).2 visible).2⟩
  · intro prints line short i narrow
    have bottom := prints.bottom
    refine (pixelFits_panics (by omega)).mpr ⟨by omega, fun visible => ⟨prints.known (by omega), ?_⟩⟩
    exact prints.places line short i narrow visible

/-- With overflow checks a character is printed if its arithmetic fits and it is
in the font, or if it is a newline. -/
theorem printNormalChar_isSome_iff (holds : con.fb.Holds con.position) (roomy : con.fb.Roomy) :
    (con.printNormalChar .panics c).isSome = true ↔ c = 10 ∨ con.fb.Prints con.position c := by
  rw [printNormalChar_eq]
  by_cases newline : c = 10
  · rw [con.fb.move_eq .panics holds roomy (.inl newline), Option.bind_some, if_pos newline, paint]
    obtain ⟨mem, scrolled⟩ := con.fb.scrollIf_some .panics roomy (decide (con.fb.height - con.position.2 < 16)) con.mem
    simp [scrolled, newline]
  · simp only [newline, false_or]
    by_cases right : con.position.1 + 8 < 2 ^ 64
    · rw [con.fb.move_eq .panics holds roomy (.inr right), Option.bind_some, if_neg newline, paint]
      obtain ⟨mem, scrolled⟩ := con.fb.scrollIf_some .panics roomy (decide (con.fb.height - con.position.2 < 16)) con.mem
      simp only [scrolled, Option.bind_eq_bind, Option.bind_some, Option.isSome_map]
      rw [glyphMem_isSome]
      exact glyph_fits_iff roomy right
    · rw [con.fb.move_panics holds roomy newline (Nat.le_of_not_lt right)]
      exact iff_of_false (by simp) fun prints => right prints.right

/-- Where the cursor is after a character that was printed. -/
theorem printNormalChar_next {overflow : Overflow} (holds : con.fb.Holds con.position) (roomy : con.fb.Roomy)
    (right : c = 10 ∨ con.position.1 + 8 < 2 ^ 64) (run : con.printNormalChar overflow c = some con') :
    con' = con.onScreen con'.mem (con.fb.nextOf con.position c) := by
  obtain ⟨m, moved, same⟩ := printNormalChar_keeps run
  rw [con.fb.move_eq overflow holds roomy right] at moved
  cases moved
  exact same

theorem holds_foldl {fb : Framebuffer} {position : Nat × Nat} (holds : fb.Holds position) (roomy : fb.Roomy)
    (cs : List Nat) : fb.Holds (cs.foldl fb.nextOf position) := by
  induction cs generalizing position with
  | nil => exact holds
  | cons c cs ih => exact ih (roomy.next _ c)

/-- All that printing some characters can do, with overflow checks. -/
theorem printAll_panics (holds : con.fb.Holds con.position) (roomy : con.fb.Roomy) (cs : List Nat) :
    (con.fb.PrintsAll con.position cs ∧ ∃ mem, cs.foldlM (fun con c => con.printNormalChar .panics c) con =
      some (con.onScreen mem (cs.foldl con.fb.nextOf con.position))) ∨
    ¬con.fb.PrintsAll con.position cs ∧ cs.foldlM (fun con c => con.printNormalChar .panics c) con = none := by
  induction cs generalizing con with
  | nil => exact .inl ⟨trivial, con.mem, rfl⟩
  | cons c cs ih =>
    have here := printNormalChar_isSome_iff (c := c) holds roomy
    rw [Framebuffer.PrintsAll, List.foldlM_cons]
    cases run : con.printNormalChar .panics c with
    | none =>
      rw [run] at here
      exact .inr ⟨fun both => Bool.noConfusion (here.mpr both.1), rfl⟩
    | some con1 =>
      rw [run] at here
      have prints := here.mp rfl
      have same := printNormalChar_next holds roomy (prints.imp_right Framebuffer.Prints.right) run
      have holds1 : con1.fb.Holds con1.position := by
        rw [same]
        exact roomy.next _ c
      have roomy1 : con1.fb.Roomy := by
        rw [same]
        exact roomy
      have rest := ih holds1 roomy1
      rw [same] at rest ⊢
      rcases rest with ⟨all, mem, done⟩ | ⟨some_not, stuck⟩
      · exact .inl ⟨⟨prints, all⟩, mem, done⟩
      · exact .inr ⟨fun both => some_not both.2, stuck⟩

end

end Console

instance : DecidablePred ParseState.Csi := fun state => inferInstanceAs (Decidable (state = _ ∨ state = _))

/-- The text up to a number that is too large for the build. The parser has read
`n` of a number. -/
def readable (overflow : Overflow) : ParseState → Nat → List UInt8 → List UInt8
  | _, _, [] => []
  | state, n, c :: s =>
    if state.Csi ∧ isAsciiDigit c = true then
      match overflow.fit 16 (n * 10 + (c - 0x30).toNat) with
      | some n' => c :: readable overflow .collectingParams n' s
      | none => []
    else c :: readable overflow (state.next c) 0 s

/-- What was read of a number counts inside of a control sequence only. -/
theorem readable_congr {overflow : Overflow} {state : ParseState} {n m : Nat} (same : state.Csi → n = m) (s : List UInt8) :
    readable overflow state n s = readable overflow state m s := by
  by_cases csi : state.Csi
  · rw [same csi]
  · cases s with
    | nil => rfl
    | cons c s => simp only [readable, csi, false_and, if_false]

namespace Console

/-- All that the parser can do with a character of a text: it panics where the
text is no longer readable, or it goes on. -/
theorem parse_cases (overflow : Overflow) {con : Console} (sized : con.Sized) (c : UInt8) :
    (con.parse overflow c = none ∧ ∀ s, readable overflow con.parseState con.currentParam (c :: s) = []) ∨
      ∃ con', con.parse overflow c = some con' ∧ Parsed con c con' ∧
        ∀ s, readable overflow con.parseState con.currentParam (c :: s) =
          c :: readable overflow con'.parseState con'.currentParam s := by
  by_cases number : con.parseState.Csi ∧ isAsciiDigit c = true
  · simp only [readable, if_pos number]
    rw [parse_digit overflow number.1 number.2]
    cases overflow.fit 16 (con.currentParam * 10 + (c - 0x30).toNat) with
    | none => exact .inl ⟨rfl, fun _ => rfl⟩
    | some param => exact .inr ⟨_, rfl, parse_digit_parsed sized number.1 number.2 param, fun _ => rfl⟩
  · obtain ⟨con', run, parsed, current⟩ := parse_other overflow sized number
    refine .inr ⟨con', run, parsed, fun s => ?_⟩
    rw [readable, if_neg number, ← parsed.state, readable_congr current s]

theorem printString_isSome_iff {con : Console} (sized : con.Sized) (holds : con.fb.Holds con.position) (roomy : con.fb.Roomy)
    (s : List UInt8) : (con.printString .panics s).isSome = true ↔
      readable .panics con.parseState con.currentParam s = s ∧
        con.fb.PrintsAll con.position (con.parseState.handedAll s) := by
  induction s generalizing con with
  | nil => exact iff_of_true rfl ⟨rfl, trivial⟩
  | cons c s ih =>
    rw [printString_cons, printChar_eq]
    rcases parse_cases .panics sized c with ⟨panics, stops⟩ | ⟨con1, run, parsed, reads⟩
    · rw [panics, stops]
      simp
    · have holds1 : con1.fb.Holds con1.position := by
        rw [parsed.fb, parsed.position]
        exact holds
      have roomy1 : con1.fb.Roomy := by
        rw [parsed.fb]
        exact roomy
      rw [run, Option.bind_some, reads, ParseState.handedAll, Framebuffer.printsAll_append, List.cons.injEq, eq_self, true_and,
        ← parsed.state, ← parsed.fb, ← parsed.position]
      rcases printAll_panics holds1 roomy1 (con.parseState.handed c) with ⟨prints, mem, done⟩ | ⟨stuck, none⟩
      · have rest := @ih (con1.onScreen mem ((con.parseState.handed c).foldl con1.fb.nextOf con1.position))
          ⟨parsed.sized.length, parsed.sized.count⟩ (holds_foldl holds1 roomy1 _) roomy1
        rw [done, Option.bind_some]
        simp only [prints, true_and]
        exact rest
      · rw [none]
        simp [stuck]

/-- With overflow checks a text is printed without a panic, in whatever calls it
comes, if and only if no number of a control sequence is above 65535 and all
characters that are handed on can be printed where they come. -/
theorem print_completes_iff {fb : Framebuffer} (roomy : fb.Roomy) (mem : Mem) (calls : List (List UInt8)) :
    calls.foldlM (fun con call => con.printString .panics call) (init fb mem) ≠ none ↔
      readable .panics .normal 0 calls.flatten = calls.flatten ∧ fb.PrintsAll (0, 0) (strip calls.flatten) := by
  have sized : (init fb mem).Sized := ⟨rfl, fun inside => absurd inside not_csi_normal⟩
  have run := printString_isSome_iff sized ⟨Nat.zero_le _, Nat.zero_le _⟩ roomy calls.flatten
  rw [printString_calls, ← Option.isSome_iff_ne_none, run, ← ParseState.handedAll_normal]
  rfl

theorem smallFramebuffer_roomy : smallFramebuffer.Roomy := ⟨by decide, by decide⟩

/-- A red `a`, in two calls. -/
theorem print_completes_red :
    [[0x1b, 0x5b, 0x33], [0x31, 0x6d, 0x61]].foldlM (fun con call => con.printString .panics call)
      (init smallFramebuffer fun _ => 0) ≠ none := by
  refine (print_completes_iff smallFramebuffer_roomy _ _).mpr ⟨by decide, ?_⟩
  have text : strip [[0x1b, 0x5b, 0x33], [0x31, 0x6d, 0x61]].flatten = [0x61] := by
    simp [strip, afterSequence, isParam, isAsciiDigit]
  have holds : smallFramebuffer.Holds (0, 0) := ⟨Nat.zero_le _, Nat.zero_le _⟩
  rw [text]
  exact ⟨.inr ((Framebuffer.prints_iff holds smallFramebuffer_roomy (by decide) (by decide)).mpr fun _ => by decide), trivial⟩

/-- An `é` is not in the font, and 65536 is not a number for the parser. -/
theorem print_panics :
    [[0xc3, 0xa9]].foldlM (fun con call => con.printString .panics call) (init smallFramebuffer fun _ => 0) = none ∧
      [[0x1b, 0x5b, 0x36, 0x35, 0x35, 0x33, 0x36]].foldlM (fun con call => con.printString .panics call)
        (init smallFramebuffer fun _ => 0) = none := by
  have sized : (init smallFramebuffer fun _ => 0).Sized := ⟨rfl, fun inside => absurd inside not_csi_normal⟩
  have holds : smallFramebuffer.Holds (0, 0) := ⟨Nat.zero_le _, Nat.zero_le _⟩
  have run := printString_isSome_iff sized holds smallFramebuffer_roomy
  rw [printString_calls, printString_calls, ← Option.not_isSome_iff_eq_none, ← Option.not_isSome_iff_eq_none, run, run]
  constructor
  · rintro ⟨_, prints⟩
    have first := prints.1.resolve_left (by decide)
    exact absurd (first.known (by decide)) (by decide)
  · rintro ⟨read, _⟩
    exact absurd read (by decide)

end Console

end ProkaKernel
