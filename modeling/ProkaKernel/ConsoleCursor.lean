import ProkaKernel.ConsoleText

namespace ProkaKernel

/-- A loop panics if one of its steps does, when that does not depend on the
state. -/
theorem foldlM_isSome {α β : Type} {f : β → α → Option β} {P : α → Prop} {l : List α}
    (step : ∀ a ∈ l, ∀ b, (f b a).isSome = true ↔ P a) (b : β) : (l.foldlM f b).isSome = true ↔ ∀ a ∈ l, P a := by
  induction l generalizing b with
  | nil => simp
  | cons a l ih =>
    have here := step a (List.mem_cons_self ..) b
    rw [List.foldlM_cons, List.forall_mem_cons, ← here]
    cases f b a with
    | none => simp
    | some b' =>
      rw [Option.isSome_some, eq_self, true_and]
      exact ih (fun a later => step a (List.mem_cons_of_mem _ later)) b'

/-- What each step keeps, a loop keeps. -/
theorem foldlM_keeps {α β : Type} {f : β → α → Option β} {P : β → Prop} (step : ∀ {b a b'}, P b → f b a = some b' → P b')
    {l : List α} {b b' : β} (start : P b) (run : l.foldlM f b = some b') : P b' := by
  induction l generalizing b with
  | nil =>
    cases run
    exact start
  | cons a l ih =>
    obtain ⟨b1, first, rest⟩ := Option.bind_eq_some_iff.mp run
    exact ih (step start first) rest

/-- What a character does besides its pixels: a scroll, the cell that it is drawn
in, and the next position. -/
structure Move where
  scrolls : Bool
  cell : Option (Nat × Nat)
  next : Nat × Nat

namespace Framebuffer

section
variable (overflow : Overflow) (fb : Framebuffer)

/-- The cell of a character that is no newline, in a row with room below. -/
def cellAt (x y : Nat) : Option (Nat × Nat) := do
  let right ← overflow.fit 64 (x + fontW)
  if fb.width < right then do
    let below ← overflow.fit 64 (y + fontH)
    pure (0, below)
  else pure (x, y)

/-- Whether a row has no room, and the row with room after the scroll. -/
def settle (y : Nat) : Option (Bool × Nat) := do
  let room ← overflow.sub 64 fb.height y
  if room < fontH then do
    let last ← overflow.sub 64 fb.height fontH
    pure (true, last)
  else pure (false, y)

/-- The arithmetic on the cursor. -/
def move (position : Nat × Nat) (c : Nat) : Option Move := do
  let (scrolls, y) ← fb.settle overflow position.2
  if c = 10 then do
    let below ← overflow.fit 64 (y + fontH)
    pure ⟨scrolls, none, (0, below)⟩
  else do
    let cell ← fb.cellAt overflow position.1 y
    let x ← overflow.fit 64 (cell.1 + fontW)
    pure ⟨scrolls, some cell, (x, cell.2)⟩

/-- The bytes after a scroll. -/
def scrollMem (mem : Mem) : Option Mem := do
  let scrollBytes ← overflow.fit 64 (fontH * fb.pitch)
  let totalBytes ← overflow.fit 64 (fb.height * fb.pitch)
  let kept ← overflow.sub 64 totalBytes scrollBytes
  pure (Console.clear (Console.moveDown mem scrollBytes kept) kept scrollBytes)

def scrollIf (scrolls : Bool) (mem : Mem) : Option Mem := if scrolls then fb.scrollMem overflow mem else some mem

/-- The place of a pixel of a glyph, unless it is clipped. -/
def pixelAt (startX startY line i : Nat) : Option (Option Nat) := do
  let x ← overflow.fit 64 (startX + i)
  let y ← overflow.fit 64 (startY + line)
  if x < fb.width ∧ y < fb.height then do
    let above ← overflow.fit 64 (y * fb.pitch)
    let left ← overflow.fit 64 (x * fb.bpp)
    let pixelOffset ← overflow.fit 64 (above + left)
    pure (some pixelOffset)
  else pure none

end

end Framebuffer

/-- The colour of a pixel, with an alpha channel or without. -/
def pixelColor (fb : Framebuffer) (fg bg : Color) (c line i : Nat) : Option Nat := do
  let glyph ← font8x16[c]?
  let bits ← glyph[line]?
  let color := if bits &&& 0x80 >>> UInt8.ofNat i ≠ 0 then fg else bg
  pure (color.toU32 (fb.bpp == 4)).toNat

namespace Console

section
variable (overflow : Overflow) (con : Console)

/-- The bytes after one pixel. -/
def pixelMem (c startX startY line i : Nat) (mem : Mem) : Option Mem := do
  match ← con.fb.pixelAt overflow startX startY line i with
  | some offset => do
    let value ← pixelColor con.fb con.fgColor con.bgColor c line i
    pure (mem.store offset 4 value)
  | none => pure mem

def lineMem (c startX startY line : Nat) (mem : Mem) : Option Mem :=
  (List.range fontW).foldlM (fun mem i => con.pixelMem overflow c startX startY line i mem) mem

def glyphMem (c startX startY : Nat) (mem : Mem) : Option Mem :=
  (List.range fontH).foldlM (fun mem line => con.lineMem overflow c startX startY line mem) mem

/-- The bytes after a character. -/
def paint (c : Nat) (m : Move) : Option Mem := do
  let mem ← con.fb.scrollIf overflow m.scrolls con.mem
  match m.cell with
  | some cell => con.glyphMem overflow c cell.1 cell.2 mem
  | none => pure mem

/-- The same console with another screen. -/
def onScreen (mem : Mem) (position : Nat × Nat) : Console := { con with mem := mem, position := position }

end

section
variable {overflow : Overflow} {con con' : Console} {c startX startY line i : Nat} {mem : Mem} {position : Nat × Nat}

theorem drawPixel_mem : (con.onScreen mem position).drawPixel overflow c startX startY line i =
    (con.pixelMem overflow c startX startY line i mem).map (con.onScreen · position) := by
  unfold drawPixel pixelMem Framebuffer.pixelAt pixelColor onScreen
  dsimp only
  cases overflow.fit 64 (startX + i) with
  | none => rfl
  | some x =>
    cases overflow.fit 64 (startY + line) with
    | none => rfl
    | some y =>
      simp only [Option.bind_eq_bind, Option.bind_some]
      split
      · cases overflow.fit 64 (y * con.fb.pitch) with
        | none => rfl
        | some above =>
          cases overflow.fit 64 (x * con.fb.bpp) with
          | none => rfl
          | some left =>
            simp only [Option.bind_some]
            cases overflow.fit 64 (above + left) with
            | none => rfl
            | some offset =>
              simp only [Option.bind_some]
              cases font8x16[c]? with
              | none => rfl
              | some glyph =>
                simp only [Option.bind_some]
                cases glyph[line]? <;> rfl
      · rfl

theorem foldlM_onScreen {f : Nat → Console → Option Console} {g : Nat → Mem → Option Mem} (l : List Nat)
    (step : ∀ i mem, f i (con.onScreen mem position) = (g i mem).map (con.onScreen · position)) (mem : Mem) :
    l.foldlM (fun con i => f i con) (con.onScreen mem position) =
      (l.foldlM (fun mem i => g i mem) mem).map (con.onScreen · position) := by
  induction l generalizing mem with
  | nil => rfl
  | cons i l ih =>
    rw [List.foldlM_cons, List.foldlM_cons, step]
    cases g i mem with
    | none => rfl
    | some mem' => exact ih mem'

theorem drawGlyph_mem : (con.onScreen mem position).drawGlyph overflow c startX startY =
    (con.glyphMem overflow c startX startY mem).map (con.onScreen · position) :=
  foldlM_onScreen _ (fun _ mem => foldlM_onScreen _ (fun _ _ => drawPixel_mem) mem) mem

theorem scrollUp_mem : (con.onScreen mem position).scrollUp overflow =
    (con.fb.scrollMem overflow mem).map (con.onScreen · position) := by
  unfold scrollUp Framebuffer.scrollMem onScreen
  dsimp only
  cases overflow.fit 64 (fontH * con.fb.pitch) with
  | none => rfl
  | some scrollBytes =>
    cases overflow.fit 64 (con.fb.height * con.fb.pitch) with
    | none => rfl
    | some totalBytes =>
      simp only [Option.bind_eq_bind, Option.bind_some]
      cases overflow.sub 64 totalBytes scrollBytes <;> rfl

/-- The scroll before a character. -/
theorem makeRoom_eq : con.makeRoom overflow = (con.fb.settle overflow con.position.2).bind fun room =>
    (con.fb.scrollIf overflow room.1 con.mem).map fun mem => con.onScreen mem (con.position.1, room.2) := by
  unfold makeRoom Framebuffer.settle
  cases overflow.sub 64 con.fb.height con.position.2 with
  | none => rfl
  | some room =>
    simp only [Option.bind_eq_bind, Option.bind_some]
    split
    · have scrolled : con.scrollUp overflow = (con.fb.scrollMem overflow con.mem).map (con.onScreen · con.position) :=
        scrollUp_mem
      rw [scrolled]
      cases before : con.fb.scrollMem overflow con.mem with
      | none => cases overflow.sub 64 con.fb.height fontH <;> simp [Framebuffer.scrollIf, before]
      | some mem =>
        simp only [Option.map_some, Option.bind_some]
        change (overflow.sub 64 con.fb.height fontH).bind _ = _
        cases overflow.sub 64 con.fb.height fontH <;> simp [Framebuffer.scrollIf, before, onScreen]
    · rfl

theorem nextLine_eq : con.nextLine overflow =
    (overflow.fit 64 (con.position.2 + fontH)).map fun below => con.onScreen con.mem (0, below) := by
  unfold nextLine
  cases overflow.fit 64 (con.position.2 + fontH) <;> rfl

theorem wrapLine_eq : con.wrapLine overflow =
    (con.fb.cellAt overflow con.position.1 con.position.2).map fun cell => con.onScreen con.mem cell := by
  unfold wrapLine Framebuffer.cellAt
  cases overflow.fit 64 (con.position.1 + fontW) with
  | none => rfl
  | some right =>
    simp only [Option.bind_eq_bind, Option.bind_some]
    split
    · rw [nextLine_eq]
      cases overflow.fit 64 (con.position.2 + fontH) <;> rfl
    · rfl

/-- A character moves the cursor and changes bytes, and nothing else of the
console. -/
theorem printNormalChar_eq (overflow : Overflow) (con : Console) (c : Nat) : con.printNormalChar overflow c =
    (con.fb.move overflow con.position c).bind fun m =>
      (con.paint overflow c m).map fun mem => con.onScreen mem m.next := by
  unfold printNormalChar Framebuffer.move paint
  rw [makeRoom_eq]
  cases con.fb.settle overflow con.position.2 with
  | none => rfl
  | some room =>
    obtain ⟨scrolls, y⟩ := room
    simp only [Option.bind_eq_bind, Option.bind_some]
    cases scrolled : con.fb.scrollIf overflow scrolls con.mem with
    | none =>
      split
      · cases overflow.fit 64 (y + fontH) <;> simp [scrolled]
      · cases con.fb.cellAt overflow con.position.1 y with
        | none => rfl
        | some cell =>
          simp only [Option.bind_some]
          cases overflow.fit 64 (cell.1 + fontW) <;> simp [scrolled]
    | some mem =>
      simp only [Option.map_some, Option.bind_some, nextLine_eq, wrapLine_eq]
      change (if c = 10 then (overflow.fit 64 (y + fontH)).map _
        else ((con.fb.cellAt overflow con.position.1 y).map _).bind _) = _
      split
      · cases overflow.fit 64 (y + fontH) <;> simp [scrolled, onScreen]
      · cases con.fb.cellAt overflow con.position.1 y with
        | none => rfl
        | some cell =>
          simp only [Option.map_some, Option.bind_some]
          change ((con.onScreen mem cell).drawGlyph overflow c cell.1 cell.2).bind _ = _
          rw [drawGlyph_mem]
          cases drawn : con.glyphMem overflow c cell.1 cell.2 mem with
          | none => cases overflow.fit 64 (cell.1 + fontW) <;> simp [scrolled, drawn]
          | some mem' =>
            simp only [Option.map_some, Option.bind_some]
            change (overflow.fit 64 (cell.1 + fontW)).bind _ = _
            cases overflow.fit 64 (cell.1 + fontW) <;> simp [scrolled, drawn, onScreen]

theorem printNormalChar_keeps (run : con.printNormalChar overflow c = some con') :
    ∃ m, con.fb.move overflow con.position c = some m ∧ con' = con.onScreen con'.mem m.next := by
  rw [printNormalChar_eq] at run
  obtain ⟨m, moved, run⟩ := Option.bind_eq_some_iff.mp run
  obtain ⟨mem, _, rfl⟩ := Option.map_eq_some_iff.mp run
  exact ⟨m, moved, rfl⟩

/-- The font has every line of every character. -/
theorem pixelColor_isSome (fb : Framebuffer) (fg bg : Color) (c i : Nat) (short : line < 16) :
    (pixelColor fb fg bg c line i).isSome = true ↔ c < 128 := by
  unfold pixelColor
  cases glyph : font8x16[c]? with
  | none =>
    have outside := List.getElem?_eq_none_iff.mp glyph
    rw [font8x16_length] at outside
    simp
    omega
  | some lines =>
    obtain ⟨inside, _⟩ := List.getElem?_eq_some_iff.mp glyph
    have length : lines.length = 16 := font8x16_lines _ (List.mem_of_getElem? glyph)
    have bits : lines[line]? = some lines[line] := List.getElem?_eq_getElem (by omega)
    rw [font8x16_length] at inside
    simp [bits, inside]

/-- A pixel has a place, or it is clipped; if it has one, it has a colour. -/
def PixelFits (overflow : Overflow) (fb : Framebuffer) (c startX startY line i : Nat) : Prop :=
  ∃ place, fb.pixelAt overflow startX startY line i = some place ∧ (place ≠ none → c < 128)

theorem pixelMem_isSome (short : line < 16) : (con.pixelMem overflow c startX startY line i mem).isSome = true ↔
    PixelFits overflow con.fb c startX startY line i := by
  unfold pixelMem PixelFits
  cases con.fb.pixelAt overflow startX startY line i with
  | none => simp
  | some place =>
    cases place with
    | none => simp
    | some offset =>
      have color := pixelColor_isSome con.fb con.fgColor con.bgColor c i short
      simp only [Option.bind_eq_bind, Option.bind_some, Option.some.injEq, exists_eq_left', ne_eq, reduceCtorEq,
        not_false_eq_true, forall_const]
      rw [← color]
      cases pixelColor con.fb con.fgColor con.bgColor c line i <;> rfl

theorem glyphMem_isSome : (con.glyphMem overflow c startX startY mem).isSome = true ↔
    ∀ line < 16, ∀ i < 8, PixelFits overflow con.fb c startX startY line i := by
  have lines := foldlM_isSome (l := List.range fontH) (f := fun mem line => con.lineMem overflow c startX startY line mem)
    (P := fun line => ∀ i < 8, PixelFits overflow con.fb c startX startY line i) (fun line inside mem => ?_) mem
  · simpa [glyphMem, fontH] using lines
  · have pixels := foldlM_isSome (l := List.range fontW)
      (f := fun mem i => con.pixelMem overflow c startX startY line i mem)
      (P := fun i => PixelFits overflow con.fb c startX startY line i)
      (fun i _ mem => pixelMem_isSome (List.mem_range.mp inside)) mem
    simpa [lineMem, fontW] using pixels

/-- Arithmetic that wraps has a result. -/
theorem sub_wraps_some (bits a b : Nat) : ∃ result, Overflow.wraps.sub bits a b = some result := by
  unfold Overflow.sub
  split <;> exact ⟨_, rfl⟩

theorem pixelAt_wraps (fb : Framebuffer) (startX startY line i : Nat) :
    ∃ place, fb.pixelAt .wraps startX startY line i = some place := by
  simp only [Framebuffer.pixelAt, Overflow.fit_wraps, Option.bind_eq_bind, Option.bind_some]
  split <;> exact ⟨_, rfl⟩

theorem move_wraps (fb : Framebuffer) (position : Nat × Nat) (c : Nat) : ∃ m, fb.move .wraps position c = some m := by
  obtain ⟨room, first⟩ := sub_wraps_some 64 fb.height position.2
  obtain ⟨last, second⟩ := sub_wraps_some 64 fb.height fontH
  have settled : ∃ room, fb.settle .wraps position.2 = some room := by
    simp only [Framebuffer.settle, first, second, Option.bind_eq_bind, Option.bind_some]
    split <;> exact ⟨_, rfl⟩
  obtain ⟨⟨scrolls, y⟩, settled⟩ := settled
  have cell : ∃ cell, fb.cellAt .wraps position.1 y = some cell := by
    simp only [Framebuffer.cellAt, Overflow.fit_wraps, Option.bind_eq_bind, Option.bind_some]
    split <;> exact ⟨_, rfl⟩
  obtain ⟨cell, found⟩ := cell
  simp only [Framebuffer.move, settled, found, Overflow.fit_wraps, Option.bind_eq_bind, Option.bind_some]
  split <;> exact ⟨_, rfl⟩

theorem scrollIf_wraps (fb : Framebuffer) (scrolls : Bool) (mem : Mem) :
    ∃ mem', fb.scrollIf .wraps scrolls mem = some mem' := by
  unfold Framebuffer.scrollIf
  split
  · simp only [Framebuffer.scrollMem, Overflow.fit_wraps, Option.bind_eq_bind, Option.bind_some]
    obtain ⟨kept, run⟩ := sub_wraps_some 64 (fb.height * fb.pitch % 2 ^ 64) (fontH * fb.pitch % 2 ^ 64)
    exact ⟨_, by rw [run]; rfl⟩
  · exact ⟨mem, rfl⟩

/-- Without overflow checks every character of the font is printed. -/
theorem printNormalChar_wraps (con : Console) (known : c < 128) : ∃ con', con.printNormalChar .wraps c = some con' := by
  obtain ⟨m, moved⟩ := move_wraps con.fb con.position c
  obtain ⟨mem, scrolled⟩ := scrollIf_wraps con.fb m.scrolls con.mem
  have painted : ∃ mem, con.paint .wraps c m = some mem := by
    unfold paint
    rw [scrolled]
    cases m.cell with
    | none => exact ⟨_, rfl⟩
    | some cell =>
      refine Option.isSome_iff_exists.mp (glyphMem_isSome.mpr fun line _ i _ => ?_)
      obtain ⟨place, found⟩ := pixelAt_wraps con.fb cell.1 cell.2 line i
      exact ⟨place, found, fun _ => known⟩
  obtain ⟨mem, painted⟩ := painted
  rw [printNormalChar_eq, moved, Option.bind_some, painted]
  exact ⟨_, rfl⟩

/-- The screen after a character depends on the screen and the colours. -/
theorem printNormalChar_congr (other : Console) {other' : Console} (fb : other.fb = con.fb) (mem : other.mem = con.mem)
    (position : other.position = con.position) (fg : other.fgColor = con.fgColor) (bg : other.bgColor = con.bgColor)
    (run : con.printNormalChar overflow c = some con') (run' : other.printNormalChar overflow c = some other') :
    other'.mem = con'.mem := by
  rw [printNormalChar_eq] at run run'
  obtain ⟨m, moved, run⟩ := Option.bind_eq_some_iff.mp run
  obtain ⟨m', moved', run'⟩ := Option.bind_eq_some_iff.mp run'
  rw [fb, position, moved] at moved'
  cases moved'
  obtain ⟨after, painted, rfl⟩ := Option.map_eq_some_iff.mp run
  obtain ⟨after', painted', rfl⟩ := Option.map_eq_some_iff.mp run'
  have same : other.paint overflow c m = con.paint overflow c m := by
    unfold paint glyphMem lineMem pixelMem
    rw [fb, mem, fg, bg]
  rw [same, painted] at painted'
  exact (Option.some.inj painted').symm

end

end Console

end ProkaKernel
