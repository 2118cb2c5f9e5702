import ProkaKernel.Console
import ProkaKernel.Terminal

namespace ProkaKernel

/-- The rule for a loop over a range, in a computation that may panic. -/
theorem foldlM_range {β : Type} {f : β → Nat → Option β} {n : Nat} {P : Nat → β → Prop} {b : β} (start : P 0 b)
    (step : ∀ i b, i < n → P i b → ∃ b', f b i = some b' ∧ P (i + 1) b') :
    ∃ b', (List.range n).foldlM f b = some b' ∧ P n b' := by
  induction n with
  | zero => exact ⟨b, rfl, start⟩
  | succ n ih =>
    obtain ⟨b1, before, here⟩ := ih fun i b inside => step i b (Nat.lt_succ_of_lt inside)
    obtain ⟨b2, last, done⟩ := step n b1 (Nat.lt_succ_self n) here
    refine ⟨b2, ?_, done⟩
    rw [List.range_succ, List.foldlM_append, before]
    show (f b1 n).bind some = some b2
    rw [last]
    rfl

namespace Framebuffer

/-- The text that fits on the framebuffer. -/
def rows (fb : Framebuffer) : Nat := fb.height / fontH
def cols (fb : Framebuffer) : Nat := fb.width / fontW

def pixel (fb : Framebuffer) (mem : Mem) (x y : Nat) : Nat := mem.load (y * fb.pitch + x * fb.bpp) 4

/-- A framebuffer of whole rows of text, with pixels of four bytes. -/
structure Text (fb : Framebuffer) : Prop where
  bpp : fb.bpp = 4
  pitch : 4 * fb.width ≤ fb.pitch
  width : 8 ≤ fb.width
  positive : 0 < fb.height
  whole : fb.height % 16 = 0

section
variable {fb : Framebuffer} {x y x' y' : Nat} {mem : Mem}

theorem Text.sizes (text : fb.Text) : fb.height = 16 * fb.rows ∧ 8 * fb.cols ≤ fb.width ∧ fb.width < 8 * fb.cols + 8 ∧
    0 < fb.rows ∧ 0 < fb.cols := by
  have whole := text.whole
  have positive := text.positive
  have width := text.width
  unfold rows cols fontH fontW
  omega

/-- The pixels of a line lie within its pitch. -/
theorem Text.offset (text : fb.Text) (left : x < fb.width) (above : y < fb.height) :
    y * fb.pitch + x * fb.bpp + 4 ≤ (y + 1) * fb.pitch ∧ (y + 1) * fb.pitch ≤ fb.height * fb.pitch := by
  have pitch := text.pitch
  refine ⟨?_, Nat.mul_le_mul_right _ above⟩
  rw [text.bpp, Nat.succ_mul]
  omega

theorem Text.pixel_store (text : fb.Text) (left : x < fb.width) (above : y < fb.height) (left' : x' < fb.width)
    (above' : y' < fb.height) {value : Nat} (small : value < 2 ^ 32) :
    fb.pixel (mem.store (y * fb.pitch + x * fb.bpp) 4 value) x' y' =
      if x' = x ∧ y' = y then value else fb.pixel mem x' y' := by
  unfold pixel
  split
  · rename_i here
    obtain ⟨rfl, rfl⟩ := here
    rw [Mem.load_store]
    exact Nat.mod_eq_of_lt small
  · rename_i other
    refine Mem.load_congr fun z lower upper => if_neg fun inside => other ?_
    have here := text.offset left above
    have there := text.offset left' above'
    rw [text.bpp] at *
    rcases Nat.lt_trichotomy y' y with before | rfl | after
    · have apart := Nat.mul_le_mul_right fb.pitch (show y' + 1 ≤ y from before)
      omega
    · omega
    · have apart := Nat.mul_le_mul_right fb.pitch (show y + 1 ≤ y' from after)
      omega

end

end Framebuffer

theorem getElem?_eq_getD {β : Type} {l : List β} {i : Nat} (inside : i < l.length) (b : β) : l[i]? = some (l.getD i b) := by
  rw [List.getD_eq_getElem?_getD, List.getElem?_eq_getElem inside, Option.getD_some]

/-- The colour of a pixel of a glyph. -/
def glyphPixel (fg bg : Color) (c line i : Nat) : Nat :=
  let bits := (font8x16.getD c []).getD line 0
  ((if bits &&& 0x80 >>> UInt8.ofNat i ≠ 0 then fg else bg).toU32 true).toNat

theorem glyphPixel_lt (fg bg : Color) (c line i : Nat) : glyphPixel fg bg c line i < 2 ^ 32 := UInt32.toNat_lt _

namespace Console

section Glyph
variable {fb : Framebuffer} {con : Console} {c line i startX startY : Nat} (overflow : Overflow)

theorem drawPixel_eq (text : con.fb.Text) (known : c < 128) (short : line < 16) (left : startX + i < con.fb.width)
    (above : startY + line < con.fb.height) :
    con.drawPixel overflow c startX startY line i = some { con with
      mem := con.mem.store ((startY + line) * con.fb.pitch + (startX + i) * con.fb.bpp) 4
        (glyphPixel con.fgColor con.bgColor c line i) } := by
  have inMemory := con.fb.inMemory
  obtain ⟨here, below⟩ := text.offset left above
  obtain ⟨width, height, _⟩ := con.fb.words
  have inFont : c < font8x16.length := by rw [font8x16_length]; exact known
  have glyph := getElem?_eq_getD inFont []
  have lines : (font8x16.getD c []).length = 16 := font8x16_lines _ (List.mem_of_getElem? glyph)
  have bits := getElem?_eq_getD (show line < (font8x16.getD c []).length by rw [lines]; exact short) 0
  have alpha : (con.fb.bpp == 4) = true := beq_iff_eq.mpr text.bpp
  unfold drawPixel
  simp only [overflow.fit_of_lt (show startX + i < 2 ^ 64 by omega), overflow.fit_of_lt (show startY + line < 2 ^ 64 by omega),
    Option.bind_eq_bind, Option.bind_some, if_pos (And.intro left above),
    overflow.fit_of_lt (show (startY + line) * con.fb.pitch < 2 ^ 64 by omega),
    overflow.fit_of_lt (show (startX + i) * con.fb.bpp < 2 ^ 64 by omega),
    overflow.fit_of_lt (show (startY + line) * con.fb.pitch + (startX + i) * con.fb.bpp < 2 ^ 64 by omega), glyph, bits, alpha]
  rfl

theorem drawPixel_clipped (low : con.fb.height ≤ startY + line) (small : startX + i < 2 ^ 64)
    (small' : startY + line < 2 ^ 64) : con.drawPixel overflow c startX startY line i = some con := by
  unfold drawPixel
  simp only [overflow.fit_of_lt small, overflow.fit_of_lt small', Option.bind_eq_bind, Option.bind_some]
  exact if_neg fun both => absurd both.2 (Nat.not_lt.mpr low)

/-- The console has other bytes, and these are the pixels. -/
def Paints (con : Console) (f : Nat → Nat → Nat) (con' : Console) : Prop :=
  ∃ mem, con' = { con with mem } ∧ ∀ x y, x < con.fb.width → y < con.fb.height → con.fb.pixel mem x y = f x y

theorem drawLine_paints (text : con.fb.Text) (known : c < 128) (short : line < 16) (left : startX + 8 ≤ con.fb.width)
    (above : startY + line < con.fb.height) :
    ∃ con', con.drawLine overflow c startX startY line = some con' ∧ con.Paints (fun x y =>
      if y = startY + line ∧ startX ≤ x ∧ x < startX + 8 then glyphPixel con.fgColor con.bgColor c line (x - startX)
      else con.fb.pixel con.mem x y) con' := by
  refine foldlM_range (P := fun i => con.Paints fun x y =>
    if y = startY + line ∧ startX ≤ x ∧ x < startX + i then glyphPixel con.fgColor con.bgColor c line (x - startX)
    else con.fb.pixel con.mem x y) ⟨con.mem, rfl, fun x y _ _ => (if_neg fun both => by omega).symm⟩ ?_
  rintro i _ inside ⟨mem, rfl, pixels⟩
  have column : startX + i < con.fb.width := by
    change i < 8 at inside
    omega
  refine ⟨_, drawPixel_eq overflow text known short column above, _, rfl, fun x y left' above' => ?_⟩
  rw [text.pixel_store column above left' above' (glyphPixel_lt ..), pixels x y left' above']
  dsimp only
  by_cases here : x = startX + i ∧ y = startY + line
  · obtain ⟨rfl, rfl⟩ := here
    rw [if_pos ⟨rfl, rfl⟩, if_pos ⟨rfl, by omega, by omega⟩, Nat.add_sub_cancel_left]
  · rw [if_neg here]
    refine if_congr (and_congr_right fun same => ?_) rfl rfl
    omega

/-- A glyph that lies on the framebuffer. -/
theorem drawGlyph_paints (text : con.fb.Text) (known : c < 128) (left : startX + 8 ≤ con.fb.width)
    (above : startY + 16 ≤ con.fb.height) :
    ∃ con', con.drawGlyph overflow c startX startY = some con' ∧ con.Paints (fun x y =>
      if startY ≤ y ∧ y < startY + 16 ∧ startX ≤ x ∧ x < startX + 8 then
        glyphPixel con.fgColor con.bgColor c (y - startY) (x - startX)
      else con.fb.pixel con.mem x y) con' := by
  refine foldlM_range (P := fun line => con.Paints fun x y =>
    if startY ≤ y ∧ y < startY + line ∧ startX ≤ x ∧ x < startX + 8 then
      glyphPixel con.fgColor con.bgColor c (y - startY) (x - startX)
    else con.fb.pixel con.mem x y) ⟨con.mem, rfl, fun x y _ _ => (if_neg fun both => by omega).symm⟩ ?_
  rintro line _ inside ⟨mem, rfl, pixels⟩
  change line < 16 at inside
  obtain ⟨_, run, mem', rfl, pixels'⟩ := drawLine_paints overflow
    (show ({ con with mem } : Console).fb.Text from text) known inside left
    (show startY + line < con.fb.height by omega)
  refine ⟨_, run, mem', rfl, fun x y left' above' => ?_⟩
  rw [pixels' x y left' above']
  dsimp only
  by_cases here : y = startY + line ∧ startX ≤ x ∧ x < startX + 8
  · obtain ⟨rfl, row⟩ := here
    rw [if_pos ⟨rfl, row⟩, if_pos ⟨by omega, by omega, row⟩, Nat.add_sub_cancel_left]
  · rw [if_neg here]
    refine (pixels x y left' above').trans (if_congr ?_ rfl rfl)
    omega

/-- A glyph below the framebuffer is not drawn. -/
theorem drawGlyph_clipped (low : con.fb.height ≤ startY) (small : startX + 8 ≤ 2 ^ 64) (small' : startY + 16 ≤ 2 ^ 64) :
    con.drawGlyph overflow c startX startY = some con := by
  obtain ⟨con', run, rfl⟩ := foldlM_range (n := fontH) (P := fun _ con' => con' = con) (b := con)
    (f := fun con line => con.drawLine overflow c startX startY line) rfl fun line _ inside same => by
      subst same
      refine foldlM_range (P := fun _ con' => con' = _) rfl fun i _ inside' same => ?_
      subst same
      change line < 16 at inside
      change i < 8 at inside'
      exact ⟨_, drawPixel_clipped overflow (by omega) (by omega) (by omega), rfl⟩
  exact run

end Glyph

/-- All pixels move up by a row, and the last row is cleared. -/
theorem scrollUp_paints {con : Console} (overflow : Overflow) (text : con.fb.Text) :
    ∃ con', con.scrollUp overflow = some con' ∧ con.Paints (fun x y =>
      if y + 16 < con.fb.height then con.fb.pixel con.mem x (y + 16) else 0) con' := by
  have inMemory := con.fb.inMemory
  have high : 16 ≤ con.fb.height := by
    obtain ⟨height, _, _, rows, _⟩ := text.sizes
    omega
  have rest : con.fb.height * con.fb.pitch - 16 * con.fb.pitch = (con.fb.height - 16) * con.fb.pitch := (Nat.sub_mul ..).symm
  have less : 16 * con.fb.pitch ≤ con.fb.height * con.fb.pitch := Nat.mul_le_mul_right _ high
  have run : con.scrollUp overflow = some { con with
      mem := clear (moveDown con.mem (16 * con.fb.pitch) ((con.fb.height - 16) * con.fb.pitch))
        ((con.fb.height - 16) * con.fb.pitch) (16 * con.fb.pitch) } := by
    unfold scrollUp fontH
    simp only [overflow.fit_of_lt (show 16 * con.fb.pitch < 2 ^ 64 by omega), overflow.fit_of_lt inMemory,
      overflow.sub_of_le 64 less, Option.bind_eq_bind, Option.bind_some, rest]
    rfl
  refine ⟨_, run, _, rfl, fun x y left above => ?_⟩
  obtain ⟨here, below⟩ := text.offset left above
  have total : (con.fb.height - 16) * con.fb.pitch + 16 * con.fb.pitch = con.fb.height * con.fb.pitch := by
    rw [← Nat.add_mul, Nat.sub_add_cancel high]
  dsimp only
  unfold Framebuffer.pixel
  split
  · rename_i inside
    have kept := Nat.mul_le_mul_right con.fb.pitch (show y + 1 ≤ con.fb.height - 16 by omega)
    have next : (y + 16) * con.fb.pitch + x * con.fb.bpp = y * con.fb.pitch + x * con.fb.bpp + 16 * con.fb.pitch := by
      rw [Nat.add_mul]
      omega
    rw [next]
    refine Mem.load_shift fun z lower upper => ?_
    rw [clear, if_neg (by omega), moveDown, if_pos (by omega)]
  · rename_i outside
    have cleared := Nat.mul_le_mul_right con.fb.pitch (show con.fb.height - 16 ≤ y by omega)
    refine Mem.load_zero fun z lower upper => ?_
    rw [clear, if_pos (by omega)]

/-- What a cell of the screen holds: what was there before the first character,
nothing, or a character. -/
inductive Cell
  | initial (row col : Nat)
  | blank
  | char (c : UInt8)

/-- The pixels of a cell, when `mem` was there before the first character. -/
def Cell.pixel (fb : Framebuffer) (mem : Mem) (cell : Cell) (line i : Nat) : Nat :=
  match cell with
  | .initial row col => fb.pixel mem (8 * col + i) (16 * row + line)
  | .blank => 0
  | .char c => glyphPixel .white .black c.toNat line i

/-- The framebuffer shows the screen. -/
def Shows (fb : Framebuffer) (start mem : Mem) (t : Terminal Cell fb.rows fb.cols) : Prop :=
  ∀ row col line i, row < fb.rows → col < fb.cols → line < 16 → i < 8 →
    fb.pixel mem (8 * col + i) (16 * row + line) = (t.grid row col).pixel fb start line i

/-- The console in its normal state has the cursor and the screen of the
terminal. -/
structure Sim (fb : Framebuffer) (start : Mem) (t : Terminal Cell fb.rows fb.cols) (con : Console) : Prop where
  same : con.fb = fb
  normal : con.parseState = .normal
  colors : con.fgColor = .white ∧ con.bgColor = .black
  position : con.position = (8 * t.col, 16 * t.row)
  inside : t.col ≤ fb.cols
  below : t.row ≤ fb.rows
  shows : Shows fb start con.mem t

section Simulation
variable {fb : Framebuffer} {start : Mem} {t : Terminal Cell fb.rows fb.cols} {con con' : Console} (overflow : Overflow)

theorem Sim.init (fb : Framebuffer) (start : Mem) : Sim fb start ⟨Cell.initial, 0, 0⟩ (init fb start) where
  same := rfl
  normal := rfl
  colors := ⟨rfl, rfl⟩
  position := rfl
  inside := Nat.zero_le _
  below := Nat.zero_le _
  shows _ _ _ _ _ _ _ _ := rfl

theorem Sim.makeRoom (sim : Sim fb start t con) (text : fb.Text) :
    ∃ con', con.makeRoom overflow = some con' ∧ Sim fb start (t.settle .blank) con' ∧ (t.settle .blank).row < fb.rows := by
  obtain ⟨height, _, _, rows, _⟩ := text.sizes
  have below := sim.below
  have y : con.position.2 = 16 * t.row := by rw [sim.position]
  obtain rfl := sim.same
  have room := overflow.sub_of_le 64 (show con.position.2 ≤ con.fb.height by omega)
  unfold Console.makeRoom
  rw [room]
  dsimp only [Option.bind_eq_bind, Option.bind_some]
  by_cases inside : t.row < con.fb.rows
  · rw [if_neg (by unfold fontH; omega), Terminal.settle_of_lt inside]
    exact ⟨con, rfl, sim, inside⟩
  · obtain ⟨_, run, mem, rfl, pixels⟩ := scrollUp_paints overflow text
    have settled : t.settle .blank = t.scroll .blank := if_neg inside
    have last := overflow.sub_of_le 64 (show fontH ≤ con.fb.height by unfold fontH; omega)
    rw [if_pos (by unfold fontH; omega), run, settled]
    dsimp only [Option.bind_some]
    rw [last]
    refine ⟨_, rfl, ⟨rfl, sim.normal, sim.colors, ?_, sim.inside, ?_, ?_⟩, ?_⟩
    · rw [sim.position]
      refine Prod.ext rfl ?_
      show con.fb.height - 16 = 16 * (t.row - 1)
      omega
    · show t.row - 1 ≤ con.fb.rows
      omega
    · intro row col line i inRows inCols inLines inWidth
      have left : 8 * col + i < con.fb.width := by omega
      refine (pixels _ _ left (by omega)).trans ?_
      dsimp only [Terminal.scroll]
      by_cases more : row + 1 < con.fb.rows
      · rw [if_pos (by omega), if_pos more, show 16 * row + line + 16 = 16 * (row + 1) + line by omega]
        exact sim.shows (row + 1) col line i more inCols inLines inWidth
      · rw [if_neg (by omega), if_neg more]
        rfl
    · show t.row - 1 < con.fb.rows
      omega

/-- The cursor goes to the start of the next row. -/
theorem Sim.nextLine (sim : Sim fb start t con) (text : fb.Text) (inside : t.row < fb.rows) :
    ∃ con', con.nextLine overflow = some con' ∧ Sim fb start { t with row := t.row + 1, col := 0 } con' := by
  obtain ⟨height, _⟩ := text.sizes
  have words := fb.words
  have y : con.position.2 + fontH = 16 * (t.row + 1) := by
    rw [sim.position]
    rfl
  have small : con.position.2 + fontH < 2 ^ 64 := by omega
  refine ⟨{ con with position := (0, con.position.2 + fontH) }, ?_, ?_⟩
  · unfold Console.nextLine
    rw [overflow.fit_of_lt small]
    rfl
  · exact { sim with position := Prod.ext rfl y, inside := Nat.zero_le _, below := inside }

theorem Sim.right_small (sim : Sim fb start t con) (text : fb.Text) : con.position.1 + fontW < 2 ^ 64 := by
  have x : con.position.1 + fontW = 8 * t.col + 8 := by
    rw [sim.position]
    rfl
  have sizes := text.sizes
  have words := fb.words
  have pitch := text.pitch
  have inCols := sim.inside
  omega

/-- A row without room for a character is left. -/
theorem Sim.wrapLine (sim : Sim fb start t con) (text : fb.Text) (inside : t.row < fb.rows) :
    ∃ con', con.wrapLine overflow = some con' ∧ Sim fb start t.wrap con' ∧ t.wrap.col < fb.cols := by
  obtain ⟨_, fits, partly, _, cols⟩ := text.sizes
  have x : con.position.1 + fontW = 8 * t.col + 8 := by
    rw [sim.position]
    rfl
  unfold Console.wrapLine Terminal.wrap
  rw [overflow.fit_of_lt (sim.right_small text), Option.bind_eq_bind, Option.bind_some, x, sim.same]
  by_cases room : t.col < fb.cols
  · rw [if_neg (by omega), if_pos room]
    exact ⟨con, rfl, sim, room⟩
  · rw [if_pos (by omega), if_neg room]
    obtain ⟨con', run, next⟩ := sim.nextLine overflow text inside
    exact ⟨con', run, next, cols⟩

/-- A character is drawn in the cell at the cursor, or below the screen. -/
theorem Sim.draw {c : UInt8} (sim : Sim fb start t con) (text : fb.Text) (known : c.toNat < 128) (room : t.col < fb.cols) :
    ∃ con', con.drawGlyph overflow c.toNat con.position.1 con.position.2 = some con' ∧ con'.position = con.position ∧
      Sim fb start (t.draw (.char c)) { con' with position := (con.position.1 + fontW, con.position.2) } := by
  obtain ⟨height, fits, _⟩ := text.sizes
  have words := fb.words
  have right : (con.position.1 + fontW, con.position.2) = (8 * (t.col + 1), 16 * t.row) := by
    rw [sim.position]
    rfl
  have width := text.width
  obtain rfl := sim.same
  obtain ⟨fg, bg⟩ := sim.colors
  by_cases inside : t.row < con.fb.rows
  · have x : con.position.1 + 8 ≤ con.fb.width := by
      rw [sim.position]
      dsimp only
      omega
    have y : con.position.2 + 16 ≤ con.fb.height := by
      rw [sim.position]
      dsimp only
      omega
    obtain ⟨_, run, mem, rfl, pixels⟩ := drawGlyph_paints overflow text known x y
    refine ⟨_, run, rfl, ⟨rfl, sim.normal, sim.colors, right, room, sim.below, ?_⟩⟩
    intro row col line i inRows inCols inLines inWidth
    refine (pixels _ _ (by omega) (by omega)).trans ?_
    rw [sim.position, fg, bg]
    dsimp only [Terminal.draw]
    by_cases here : row = t.row ∧ col = t.col
    · obtain ⟨rfl, rfl⟩ := here
      rw [if_pos (by omega), if_pos ⟨rfl, rfl⟩, Nat.add_sub_cancel_left, Nat.add_sub_cancel_left]
      rfl
    · rw [if_neg (by omega), if_neg here]
      exact sim.shows row col line i inRows inCols inLines inWidth
  · have low : con.fb.height ≤ con.position.2 := by
      rw [sim.position]
      dsimp only
      omega
    have small := sim.right_small text
    have below := sim.below
    have lines := Nat.mul_le_mul_left con.fb.height (show 32 ≤ con.fb.pitch from Nat.le_trans (by omega) text.pitch)
    have inMemory := con.fb.inMemory
    have small' : con.position.2 + 16 ≤ 2 ^ 64 := by
      rw [sim.position]
      dsimp only
      omega
    refine ⟨con, drawGlyph_clipped overflow low (Nat.le_of_lt small) small', rfl, { sim with
      position := right, inside := room, shows := fun row col line i inRows inCols inLines inWidth => ?_ }⟩
    dsimp only [Terminal.draw]
    rw [if_neg (show ¬(row = t.row ∧ col = t.col) from fun both => inside (both.1 ▸ inRows))]
    exact sim.shows row col line i inRows inCols inLines inWidth

/-- A character for the terminal. -/
def symbol (c : UInt8) : Option Cell := if c = 10 then none else some (.char c)

theorem Sim.printNormalChar {c : UInt8} (sim : Sim fb start t con) (text : fb.Text) (known : c.toNat < 128) :
    ∃ con', con.printNormalChar overflow c.toNat = some con' ∧ Sim fb start (t.typeLate .blank (symbol c)) con' := by
  obtain ⟨con1, room, sim1, inside⟩ := sim.makeRoom overflow text
  unfold Console.printNormalChar
  rw [room]
  dsimp only [Option.bind_eq_bind, Option.bind_some]
  by_cases newline : c = 10
  · rw [symbol, if_pos newline, if_pos (by rw [newline]; rfl)]
    exact sim1.nextLine overflow text inside
  · have other : c.toNat ≠ 10 := fun same => newline (UInt8.toNat_inj.mp same)
    obtain ⟨con2, wrapped, sim2, free⟩ := sim1.wrapLine overflow text inside
    obtain ⟨con3, drawn, same, sim3⟩ := sim2.draw overflow text known free
    rw [show symbol c = some (.char c) from if_neg newline]
    refine ⟨_, ?_, sim3⟩
    rw [if_neg other, wrapped, Option.bind_some, drawn, Option.bind_some, same,
      overflow.fit_of_lt (sim2.right_small text)]
    rfl

theorem Sim.printChar {c : UInt8} (sim : Sim fb start t con) (text : fb.Text) (known : c.toNat < 128) (visible : c ≠ 0x1b) :
    ∃ con', con.printChar overflow c = some con' ∧ Sim fb start (t.typeLate .blank (symbol c)) con' := by
  unfold Console.printChar
  rw [sim.normal]
  dsimp only
  rw [if_neg visible]
  exact sim.printNormalChar overflow text known

/-- Text that a terminal prints: ASCII without escape sequences. -/
def Plain (s : List UInt8) : Prop := ∀ c ∈ s, c.toNat < 128 ∧ c ≠ 0x1b

/-- The console is the terminal that scrolls late. -/
theorem Sim.printString {s : List UInt8} (sim : Sim fb start t con) (text : fb.Text) (plain : Plain s) :
    ∃ con', con.printString overflow s = some con' ∧ Sim fb start (t.runLate .blank (s.map symbol)) con' := by
  induction s generalizing con t with
  | nil => exact ⟨con, rfl, sim⟩
  | cons c s ih =>
    obtain ⟨known, visible⟩ := plain c List.mem_cons_self
    obtain ⟨con1, printed, sim1⟩ := sim.printChar overflow text known visible
    obtain ⟨con2, rest, sim2⟩ := ih sim1 fun c later => plain c (List.mem_cons_of_mem _ later)
    refine ⟨con2, ?_, sim2⟩
    unfold Console.printString
    rw [List.foldlM_cons, printed]
    exact rest

end Simulation

/-- A terminal of the size of the framebuffer, after a text. -/
def screen (fb : Framebuffer) (s : List UInt8) : Terminal Cell fb.rows fb.cols :=
  Terminal.run .blank ⟨Cell.initial, 0, 0⟩ (s.map symbol)

/-- At every moment of a text the framebuffer shows the screen of the terminal,
and the cursor is where the terminal has it. -/
def RefinesTerminal (overflow : Overflow) (fb : Framebuffer) (mem : Mem) (s : List UInt8) : Prop :=
  ∀ p, p <+: s → ∃ con, (init fb mem).printString overflow p = some con ∧ Shows fb mem con.mem (screen fb p) ∧
    con.position = (8 * (screen fb p).col, 16 * (screen fb p).row)

theorem lineLengths_symbol (s : List UInt8) :
    Terminal.lineLengths Option.isNone (s.map symbol) = Terminal.lineLengths (· == 10) s := by
  refine Terminal.lineLengths_map (fun c => ?_) s
  unfold symbol
  by_cases newline : c = 10
  · rw [if_pos newline, newline]
    rfl
  · rw [if_neg newline, beq_eq_false_iff_ne.mpr newline]
    rfl

theorem initial_at (fb : Framebuffer) :
    Terminal.At (⟨Cell.initial, 0, 0⟩ : Terminal Cell fb.rows fb.cols) 0 0 where
  row := rfl
  below := Nat.zero_le _
  inside := Nat.zero_le _
  first _ := rfl
  fits none := absurd none (Nat.lt_irrefl 0)

/-- The console refines the terminal exactly on the texts whose long lines end
on the first screen. On another one the character that wraps from the last row is
clipped. -/
theorem refines_terminal_iff (overflow : Overflow) {fb : Framebuffer} (text : fb.Text) (mem : Mem) {s : List UInt8}
    (plain : Plain s) :
    RefinesTerminal overflow fb mem s ↔
      Terminal.LongLinesFit fb.rows fb.cols 0 (Terminal.lineLengths (· == 10) s) := by
  obtain ⟨_, _, _, rows, cols⟩ := text.sizes
  have run (p : List UInt8) (before : p <+: s) :=
    (Sim.init fb mem).printString overflow text fun c inside => plain c (before.subset inside)
  rw [← Terminal.fitsFrom_zero, ← lineLengths_symbol]
  have counted : 0 * fb.cols + 0 = 0 := Nat.zero_mul _
  constructor
  · intro refines
    suffices fits : Terminal.FitsFrom fb.rows fb.cols 0 (0 * fb.cols + 0) _ by rwa [counted] at fits
    refine (initial_at fb).fits_of_runLate rows cols .blank fun p before => ?_
    obtain ⟨q, before', rfl⟩ := List.prefix_map_iff.mp before
    obtain ⟨con, printed, sim⟩ := run q before'
    obtain ⟨con', printed', _, position⟩ := refines q before'
    obtain rfl : con = con' := Option.some.inj (printed.symm.trans printed')
    exact Nat.eq_of_mul_eq_mul_left (by decide) (Prod.ext_iff.mp (sim.position.symm.trans position)).2
  · intro fits p before
    obtain ⟨con, printed, sim⟩ := run p before
    rw [(initial_at fb).runLate_eq rows cols (by rw [counted]; exact fits) (before.map symbol)] at sim
    exact ⟨con, printed, sim.shows, sim.position⟩

/-- A framebuffer for two rows and two columns. -/
def smallFramebuffer : Framebuffer := ⟨16, 32, 64, 4, by decide, by decide⟩

theorem smallFramebuffer_text : smallFramebuffer.Text := ⟨rfl, by decide, by decide, by decide, rfl⟩

/-- The lines `abc` and `d`, of which the first one takes two rows. -/
theorem refines_terminal_two_lines :
    RefinesTerminal .panics smallFramebuffer (fun _ => 0) [0x61, 0x62, 0x63, 10, 0x64] :=
  (refines_terminal_iff .panics smallFramebuffer_text _ (by unfold Plain; decide +kernel)).mpr (by decide)

/-- After `abcd` has filled the screen, an `e` is not drawn: the last row still
begins with `c`. -/
theorem fifth_character_clipped :
    ∃ con, (init smallFramebuffer fun _ => 0).printString .panics [0x61, 0x62, 0x63, 0x64, 0x65] = some con ∧
      ¬Shows smallFramebuffer (fun _ => 0) con.mem (screen smallFramebuffer [0x61, 0x62, 0x63, 0x64, 0x65]) := by
  obtain ⟨con, printed, sim⟩ := (Sim.init smallFramebuffer fun _ => 0).printString .panics smallFramebuffer_text
    (s := [0x61, 0x62, 0x63, 0x64, 0x65]) (by unfold Plain; decide +kernel)
  refine ⟨con, printed, fun shows => ?_⟩
  have late := sim.shows 1 0 7 2 (by decide) (by decide) (by decide) (by decide)
  have drawn := shows 1 0 7 2 (by decide) (by decide) (by decide) (by decide)
  have same : glyphPixel .white .black 0x63 7 2 = glyphPixel .white .black 0x65 7 2 := late.symm.trans drawn
  exact absurd same (by decide)

end Console

end ProkaKernel
