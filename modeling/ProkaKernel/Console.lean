import ProkaKernel.Font
import ProkaKernel.Overflow
import ProkaKernel.PhysMem

namespace ProkaKernel

structure Color where
  r : UInt8
  g : UInt8
  b : UInt8
  a : UInt8
deriving DecidableEq

namespace Color

def new (r g b : UInt8) : Color := ⟨r, g, b, 255⟩

def toU32 (color : Color) (includeAlpha : Bool) : UInt32 :=
  let r := color.r.toUInt32
  let g := color.g.toUInt32
  let b := color.b.toUInt32
  if includeAlpha then color.a.toUInt32 <<< 24 ||| r <<< 16 ||| g <<< 8 ||| b
  else r <<< 16 ||| g <<< 8 ||| b

def black : Color := new 0 0 0
def white : Color := new 255 255 255
def red : Color := new 255 0 0
def green : Color := new 0 255 0
def blue : Color := new 0 0 255
def yellow : Color := new 255 255 0
def cyan : Color := new 0 255 255
def magenta : Color := new 255 0 255

end Color

def fontW : Nat := 8
def fontH : Nat := 16

def maxAnsiParams : Nat := 16

inductive ParseState
  | normal
  | escape
  | escapeBracket
  | collectingParams
deriving DecidableEq

/-- The framebuffer that the bootloader reports. Its numbers are machine words,
and its bytes are a region of memory. -/
structure Framebuffer where
  width : Nat
  height : Nat
  pitch : Nat
  bpp : Nat
  words : width < 2 ^ 64 ∧ height < 2 ^ 64 ∧ pitch < 2 ^ 64 ∧ bpp < 2 ^ 64
  inMemory : height * pitch < 2 ^ 64

/-- The console; `mem` are the bytes from the address of the framebuffer on. -/
structure Console where
  fb : Framebuffer
  mem : Mem
  position : Nat × Nat := (0, 0)
  fgColor : Color := .white
  bgColor : Color := .black
  parseState : ParseState := .normal
  ansiParams : List Nat := List.replicate maxAnsiParams 0
  ansiParamCount : Nat := 0
  currentParam : Nat := 0

namespace Console

def init (fb : Framebuffer) (mem : Mem) : Console := { fb, mem }

/-- The bytes from `n` on are moved down to the first ones. -/
def moveDown (mem : Mem) (n count : Nat) : Mem := fun x => if x < count then mem (x + n) else mem x

/-- A region is cleared. -/
def clear (mem : Mem) (start count : Nat) : Mem := fun x => if start ≤ x ∧ x < start + count then 0 else mem x

section
variable (overflow : Overflow)

def scrollUp (con : Console) : Option Console := do
  let scrollBytes ← overflow.fit 64 (fontH * con.fb.pitch)
  let totalBytes ← overflow.fit 64 (con.fb.height * con.fb.pitch)
  let kept ← overflow.sub 64 totalBytes scrollBytes
  pure { con with mem := clear (moveDown con.mem scrollBytes kept) kept scrollBytes }

/-- One pixel of a glyph. Pixels outside of the framebuffer are passed over,
before the font is looked at. -/
def drawPixel (c startX startY line i : Nat) (con : Console) : Option Console := do
  let mask : UInt8 := 0x80 >>> UInt8.ofNat i
  let isAlpha := con.fb.bpp == 4
  let x ← overflow.fit 64 (startX + i)
  let y ← overflow.fit 64 (startY + line)
  if x < con.fb.width ∧ y < con.fb.height then do
    let above ← overflow.fit 64 (y * con.fb.pitch)
    let left ← overflow.fit 64 (x * con.fb.bpp)
    let pixelOffset ← overflow.fit 64 (above + left)
    let glyph ← font8x16[c]?
    let bits ← glyph[line]?
    let color := if bits &&& mask ≠ 0 then con.fgColor else con.bgColor
    pure { con with mem := con.mem.store pixelOffset 4 (color.toU32 isAlpha).toNat }
  else pure con

def drawLine (c startX startY line : Nat) (con : Console) : Option Console :=
  (List.range fontW).foldlM (fun con i => con.drawPixel overflow c startX startY line i) con

def drawGlyph (c startX startY : Nat) (con : Console) : Option Console :=
  (List.range fontH).foldlM (fun con line => con.drawLine overflow c startX startY line) con

/-- The scroll that is made up before a character that has no room below. -/
def makeRoom (con : Console) : Option Console := do
  let room ← overflow.sub 64 con.fb.height con.position.2
  if room < fontH then do
    let con ← con.scrollUp overflow
    let y ← overflow.sub 64 con.fb.height fontH
    pure { con with position := (con.position.1, y) }
  else pure con

def nextLine (con : Console) : Option Console := do
  let y ← overflow.fit 64 (con.position.2 + fontH)
  pure { con with position := (0, y) }

/-- The next line, if there is no room to the right. -/
def wrapLine (con : Console) : Option Console := do
  let right ← overflow.fit 64 (con.position.1 + fontW)
  if con.fb.width < right then con.nextLine overflow else pure con

def printNormalChar (c : Nat) (con : Console) : Option Console := do
  let con ← con.makeRoom overflow
  if c = 10 then con.nextLine overflow
  else do
    let con ← con.wrapLine overflow
    let con ← con.drawGlyph overflow c con.position.1 con.position.2
    let x ← overflow.fit 64 (con.position.1 + fontW)
    pure { con with position := (x, con.position.2) }

def pushParam (con : Console) : Console :=
  if con.ansiParamCount < maxAnsiParams then
    { con with ansiParams := con.ansiParams.set con.ansiParamCount con.currentParam,
               ansiParamCount := con.ansiParamCount + 1, currentParam := 0 }
  else { con with currentParam := 0 }

/-- One parameter of an SGR command. -/
def sgr (con : Console) (param : Nat) : Console :=
  match param with
  | 0 => { con with fgColor := .white, bgColor := .black }
  | 30 => { con with fgColor := .black }
  | 31 => { con with fgColor := .red }
  | 32 => { con with fgColor := .green }
  | 33 => { con with fgColor := .yellow }
  | 34 => { con with fgColor := .blue }
  | 35 => { con with fgColor := .magenta }
  | 36 => { con with fgColor := .cyan }
  | 37 => { con with fgColor := .white }
  | 40 => { con with bgColor := .black }
  | 41 => { con with bgColor := .red }
  | 42 => { con with bgColor := .green }
  | 43 => { con with bgColor := .yellow }
  | 44 => { con with bgColor := .blue }
  | 45 => { con with bgColor := .magenta }
  | 46 => { con with bgColor := .cyan }
  | 47 => { con with bgColor := .white }
  | _ => con

/-- A sequence without parameters is a reset. A slice beyond the buffer would
panic. -/
def handleSgr (con : Console) : Option Console :=
  let con := if con.ansiParamCount = 0 then
    { con with ansiParams := con.ansiParams.set 0 0, ansiParamCount := 1 } else con
  if con.ansiParamCount ≤ con.ansiParams.length then
    let con := (con.ansiParams.take con.ansiParamCount).foldl sgr con
    some { con with ansiParamCount := 0, currentParam := 0 }
  else none

/-- The cursor commands do nothing yet. -/
def parseAnsiCommand (cmd : UInt8) (con : Console) : Option Console :=
  if cmd = 0x6d then con.handleSgr else some con

def isAsciiDigit (c : UInt8) : Bool := 0x30 ≤ c && c ≤ 0x39

/-- One more digit of the current parameter. -/
def addDigit (c : UInt8) (con : Console) : Option Console := do
  let tens ← overflow.fit 16 (con.currentParam * 10)
  let param ← overflow.fit 16 (tens + (c - 0x30).toNat)
  pure { con with currentParam := param }

/-- The end of a sequence: the last parameter, and the command. -/
def endSequence (c : UInt8) (con : Console) : Option Console := do
  let con ← con.pushParam.parseAnsiCommand c
  pure { con with parseState := .normal }

def printChar (con : Console) (c : UInt8) : Option Console :=
  match con.parseState with
  | .normal =>
    if c = 0x1b then some { con with parseState := .escape }
    else con.printNormalChar overflow c.toNat
  | .escape =>
    if c = 0x5b then some { con with parseState := .escapeBracket, ansiParamCount := 0, currentParam := 0 }
    else do
      let con ← { con with parseState := .normal }.printNormalChar overflow 0x1b
      con.printNormalChar overflow c.toNat
  | .escapeBracket =>
    if isAsciiDigit c then do
      let con ← con.addDigit overflow c
      pure { con with parseState := .collectingParams }
    else if c = 0x3b then some { con.pushParam with currentParam := 0 }
    else con.endSequence c
  | .collectingParams =>
    if isAsciiDigit c then con.addDigit overflow c
    else if c = 0x3b then some { con.pushParam with currentParam := 0, parseState := .escapeBracket }
    else con.endSequence c

def printString (con : Console) (s : List UInt8) : Option Console := s.foldlM (fun con c => con.printChar overflow c) con

end

end Console

end ProkaKernel
