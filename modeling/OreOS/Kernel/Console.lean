import OreOS.Kernel.Loader

/-!
# The text console (`kernel/console.c`)

The console draws characters into the framebuffer and keeps a cursor on a grid of
cells. All numbers are `uint32_t`; a loop `for (y = a; y < b; ++y)` is a fold over the
numbers from `a` to `b`.

Every pixel that is stored is on record with its row and its column.
-/

namespace OreOS.Kernel

open OreOS.Lib (Word Byte)

namespace Console

abbrev U32 := BitVec 32

def cellW : U32 := 12
def cellH : U32 := 18
def topBarH : U32 := 32
def leftPad : U32 := 16

abbrev Color := BitVec 32

def bg : Color := 0x000b1014
def panelBg : Color := 0x00101920
def barBg : Color := 0x00182026
def fg : Color := 0x00e6edf3
def dim : Color := 0x008aa0ad
def accent : Color := 0x004ed7b7
def blue : Color := 0x0064b5f6
def yellow : Color := 0x00f3cc60
def red : Color := 0x00ff6b6b
def green : Color := 0x0068d391
def magenta : Color := 0x00c792ea
def cyan : Color := 0x005fd7e5
def white : Color := 0x00ffffff

structure OreFramebuffer where
  base : Word
  width : U32
  height : U32
  pixelsPerScanline : U32

/-- Where a pixel was stored: the row and the column that the code means, and the index in
`uint32_t`s from `fb.base`. -/
structure PixelAt where
  row : U32
  col : U32
  index : Nat
  deriving DecidableEq

end Console

open Console

/-- The globals of the console. `esc_params` is there up to `esc_param_count`. -/
structure Console where
  fb : OreFramebuffer
  cursorX : U32 := 0
  cursorY : U32 := 0
  cols : U32 := 0
  rows : U32 := 0
  textOriginX : U32 := 0
  textOriginY : U32 := 0
  escState : U32 := 0
  escParam : U32 := 0
  escParams : List U32 := []
  currentFg : Color := 0
  currentBg : Color := 0
  inverse : Bool := false
  gfxModeActive : Bool := false
  /-- The pixels at `fb.base`. -/
  pixels : Nat → Color := fun _ => 0
  /-- The pixels that were stored. -/
  stored : List PixelAt := []

namespace Console

/-! ## Pixels -/

/-- The numbers of a loop from `a` while below `b`. -/
def span (a b : U32) : List U32 :=
  (List.range' a.toNat (b.toNat - a.toNat)).map (BitVec.ofNat 32)

/-- `row * fb.pixels_per_scanline + col`. -/
def OreFramebuffer.index (fb : OreFramebuffer) (row col : U32) : Nat :=
  (row * fb.pixelsPerScanline + col).toNat

def store (p : PixelAt) (color : Color) (c : Console) : Console :=
  { c with
    pixels := fun i => if i = p.index then color else c.pixels i
    stored := c.stored ++ [p] }

def putPixel (x y : U32) (color : Color) (c : Console) : Console :=
  if c.fb.base = 0 ∨ x ≥ c.fb.width ∨ y ≥ c.fb.height then c
  else store ⟨y, x, c.fb.index y x⟩ color c

/-- The end of a loop with two conditions. -/
def min32 (a b : U32) : U32 := if a ≤ b then a else b

def fillRect (x0 y0 w h : U32) (color : Color) (c : Console) : Console :=
  (span y0 (min32 (y0 + h) c.fb.height)).foldl
    (fun c y =>
      (span x0 (min32 (x0 + w) c.fb.width)).foldl (fun c x => putPixel x y color c) c) c

/-! ## Glyphs -/

def letters : List (List Byte) :=
  [[14, 17, 17, 31, 17, 17, 17],
    [30, 17, 17, 30, 17, 17, 30],
    [14, 17, 16, 16, 16, 17, 14],
    [30, 17, 17, 17, 17, 17, 30],
    [31, 16, 16, 30, 16, 16, 31],
    [31, 16, 16, 30, 16, 16, 16],
    [14, 17, 16, 23, 17, 17, 15],
    [17, 17, 17, 31, 17, 17, 17],
    [14, 4, 4, 4, 4, 4, 14],
    [7, 2, 2, 2, 18, 18, 12],
    [17, 18, 20, 24, 20, 18, 17],
    [16, 16, 16, 16, 16, 16, 31],
    [17, 27, 21, 21, 17, 17, 17],
    [17, 25, 21, 19, 17, 17, 17],
    [14, 17, 17, 17, 17, 17, 14],
    [30, 17, 17, 30, 16, 16, 16],
    [14, 17, 17, 17, 21, 18, 13],
    [30, 17, 17, 30, 20, 18, 17],
    [15, 16, 16, 14, 1, 1, 30],
    [31, 4, 4, 4, 4, 4, 4],
    [17, 17, 17, 17, 17, 17, 14],
    [17, 17, 17, 17, 17, 10, 4],
    [17, 17, 17, 21, 21, 21, 10],
    [17, 17, 10, 4, 10, 17, 17],
    [17, 17, 10, 4, 4, 4, 4],
    [31, 1, 2, 4, 8, 16, 31]]

/-- The glyphs of the other characters. -/
def symbols : List (Byte × List Byte) :=
  [(0x30, [14, 17, 19, 21, 25, 17, 14]),
    (0x31, [4, 12, 4, 4, 4, 4, 14]),
    (0x32, [14, 17, 1, 2, 4, 8, 31]),
    (0x33, [30, 1, 1, 14, 1, 1, 30]),
    (0x34, [2, 6, 10, 18, 31, 2, 2]),
    (0x35, [31, 16, 30, 1, 1, 17, 14]),
    (0x36, [6, 8, 16, 30, 17, 17, 14]),
    (0x37, [31, 1, 2, 4, 8, 8, 8]),
    (0x38, [14, 17, 17, 14, 17, 17, 14]),
    (0x39, [14, 17, 17, 15, 1, 2, 12]),
    (0x20, [0, 0, 0, 0, 0, 0, 0]),
    (0x21, [4, 4, 4, 4, 4, 0, 4]),
    (0x3a, [0, 4, 4, 0, 4, 4, 0]),
    (0x2e, [0, 0, 0, 0, 0, 12, 12]),
    (0x2c, [0, 0, 0, 0, 0, 4, 8]),
    (0x2f, [1, 1, 2, 4, 8, 16, 16]),
    (0x2d, [0, 0, 0, 31, 0, 0, 0]),
    (0x5f, [0, 0, 0, 0, 0, 0, 31]),
    (0x3e, [16, 8, 4, 2, 4, 8, 16]),
    (0x3c, [1, 2, 4, 8, 4, 2, 1]),
    (0x3d, [0, 0, 31, 0, 31, 0, 0]),
    (0x2b, [0, 4, 4, 31, 4, 4, 0]),
    (0x22, [10, 10, 0, 0, 0, 0, 0]),
    (0x27, [4, 4, 0, 0, 0, 0, 0]),
    (0x28, [2, 4, 8, 8, 8, 4, 2]),
    (0x29, [8, 4, 2, 2, 2, 4, 8]),
    (0x2a, [0, 21, 14, 31, 14, 21, 0]),
    (0x23, [10, 31, 10, 10, 31, 10, 0])]

def qmark : List Byte := [14, 17, 1, 2, 4, 0, 4]

def glyphRows (c : Byte) : List Byte :=
  let c := if c ≥ 0x61 ∧ c ≤ 0x7a then c - 0x61 + 0x41 else c
  if c ≥ 0x41 ∧ c ≤ 0x5a then letters.getD (c - 0x41).toNat qmark
  else (symbols.lookup c).getD qmark

/-- The four pixels of a dot of a glyph. -/
def putDot (gx gy : U32) (color : Color) (c : Console) : Console :=
  let c := putPixel gx gy color c
  let c := putPixel (gx + 1) gy color c
  let c := putPixel gx (gy + 1) color c
  putPixel (gx + 1) (gy + 1) color c

def drawGlyph (px py : U32) (ch : Byte) (color : Color) (c : Console) : Console :=
  (span 0 7).foldl
    (fun c y =>
      (span 0 5).foldl
        (fun c x =>
          if (glyphRows ch).getD y.toNat 0 &&& (1 <<< (4 - x.toNat)) ≠ 0 then
            putDot (px + 1 + x * 2) (py + 2 + y * 2) color c
          else c) c) c

def drawTextPx (x y : U32) : List Byte → Color → Console → Console
  | [], _, c => c
  | ch :: s, color, c => drawTextPx (x + cellW) y s color (drawGlyph x y ch color c)

def bytesOf (s : String) : List Byte :=
  s.toList.map fun ch => BitVec.ofNat 8 ch.toNat

/-! ## The screen -/

def drawStatusBar (c : Console) : Console :=
  if c.fb.base = 0 then c
  else
    let c := fillRect 0 0 c.fb.width topBarH barBg c
    let c := fillRect 0 (topBarH - 3) c.fb.width 1 blue c
    let c := fillRect 0 (topBarH - 2) c.fb.width 2 accent c
    let c := fillRect 8 7 24 18 accent c
    let c := drawTextPx 40 9 (bytesOf "ORE") fg c
    let c := drawTextPx 80 9 (bytesOf "interactive system") accent c
    drawTextPx (if c.fb.width > 224 then c.fb.width - 224 else 8) 9 (bytesOf "disk / smp / ring3") dim c

/-- The width of the panel. -/
def panelWidth (fb : OreFramebuffer) : U32 :=
  if fb.width > 16 then fb.width - 16 else fb.width

def clearScreen (c : Console) : Console :=
  if c.fb.base = 0 then c
  else
    let c := fillRect 0 0 c.fb.width c.fb.height bg c
    let c := drawStatusBar c
    let c := fillRect 8 (c.textOriginY - 8) (panelWidth c.fb) (c.fb.height - c.textOriginY) panelBg c
    { c with cursorX := 0, cursorY := 0 }

def clearCell (cx cy : U32) (c : Console) : Console :=
  fillRect (c.textOriginX + cx * cellW) (c.textOriginY + cy * cellH) cellW cellH c.currentBg c

/-- The loops of `scroll_up`, which store without a check. -/
def copyRows (srcY dstY copyH : U32) (c : Console) : Console :=
  (span 0 copyH).foldl
    (fun c y =>
      (span 0 c.fb.width).foldl
        (fun c x =>
          store ⟨dstY + y, x, c.fb.index (dstY + y) x⟩ (c.pixels (c.fb.index (srcY + y) x)) c) c) c

def scrollUp (c : Console) : Console :=
  if c.fb.base = 0 ∨ c.rows = 0 then c
  else
    let srcY := c.textOriginY + cellH
    let dstY := c.textOriginY
    let copyH := if c.rows > 1 then (c.rows - 1) * cellH else 0
    let c := copyRows srcY dstY copyH c
    fillRect 8 (c.textOriginY + (c.rows - 1) * cellH) (panelWidth c.fb) cellH panelBg c

def newline (c : Console) : Console :=
  let c := { c with cursorX := 0, cursorY := c.cursorY + 1 }
  if c.cursorY ≥ c.rows then
    let c := scrollUp c
    { c with cursorY := c.rows - 1 }
  else c

/-! ## Escape sequences -/

def ansiColor (code : U32) (fallback : Color) : Color :=
  if code = 30 then 0x001b232b
  else if code = 31 then red
  else if code = 32 then green
  else if code = 33 then yellow
  else if code = 34 then blue
  else if code = 35 then magenta
  else if code = 36 then cyan
  else if code = 37 then fg
  else if code = 90 then dim
  else if code = 91 then red
  else if code = 92 then green
  else if code = 93 then yellow
  else if code = 94 then blue
  else if code = 95 then magenta
  else if code = 96 then cyan
  else if code = 97 then white
  else fallback

def ansiBg (code : U32) (fallback : Color) : Color :=
  if code ≥ 40 ∧ code ≤ 47 then ansiColor (code - 10) fallback
  else if code ≥ 100 ∧ code ≤ 107 then ansiColor (code - 60) fallback
  else fallback

def sgrReset (c : Console) : Console :=
  { c with currentFg := fg, currentBg := panelBg, inverse := false }

/-- The body of the loop of `sgr_apply`. -/
def sgrParam (c : Console) (p : U32) : Console :=
  if p = 0 then sgrReset c
  else if p = 1 then { c with currentFg := white }
  else if p = 2 then { c with currentFg := dim }
  else if p = 7 then { c with inverse := true }
  else if p = 22 ∨ p = 27 then { c with inverse := false }
  else if (p ≥ 30 ∧ p ≤ 37) ∨ (p ≥ 90 ∧ p ≤ 97) then
    { c with currentFg := ansiColor p c.currentFg }
  else if (p ≥ 40 ∧ p ≤ 47) ∨ (p ≥ 100 ∧ p ≤ 107) then
    { c with currentBg := ansiBg p c.currentBg }
  else c

def sgrApply (c : Console) : Console :=
  if c.escParams.length = 0 then sgrReset c else c.escParams.foldl sgrParam c

def escReset (c : Console) : Console :=
  { c with escState := 0, escParam := 0, escParams := [] }

def escPushParam (c : Console) : Console :=
  let c := if c.escParams.length < 4 then { c with escParams := c.escParams ++ [c.escParam] } else c
  { c with escParam := 0 }

/-- `handle_escape`, with whether it took the character. -/
def handleEscape (ch : Byte) (c : Console) : Bool × Console :=
  if c.escState = 0 then (false, c)
  else if c.escState = 1 then
    if ch = 0x5b then (true, { c with escState := 2, escParam := 0, escParams := [] })
    else (true, escReset c)
  else if ch ≥ 0x30 ∧ ch ≤ 0x39 then
    (true, { c with escParam := c.escParam * 10 + (ch - 0x30).setWidth 32 })
  else if ch = 0x3b then (true, escPushParam c)
  else if ch = 0x4a then (true, escReset (clearScreen c))
  else if ch = 0x48 then (true, escReset { c with cursorX := 0, cursorY := 0 })
  else if ch = 0x6d then (true, escReset (sgrApply (escPushParam c)))
  else (true, escReset c)

/-! ## Characters -/

/-- The end of `put_char`. -/
def advance (c : Console) : Console :=
  let c := { c with cursorX := c.cursorX + 1 }
  if c.cursorX ≥ c.cols then newline c else c

/-- `put_char` for a character that is drawn. -/
def putGlyph (ch : Byte) (c : Console) : Console :=
  let fg := if c.inverse then c.currentBg else c.currentFg
  let bg := if c.inverse then c.currentFg else c.currentBg
  let c := fillRect (c.textOriginX + c.cursorX * cellW) (c.textOriginY + c.cursorY * cellH) cellW cellH
    bg c
  let c := drawGlyph (c.textOriginX + c.cursorX * cellW) (c.textOriginY + c.cursorY * cellH) ch fg c
  advance c

/-- `put_char` for a backspace. -/
def backspace (c : Console) : Console :=
  let c := if c.cursorX ≠ 0 then { c with cursorX := c.cursorX - 1 } else c
  clearCell c.cursorX c.cursorY c

/-- `put_char` behind the parser of escape sequences. -/
def putPlain (ch : Byte) (c : Console) : Console :=
  if ch = 27 then { c with escState := 1 }
  else if ch = 13 then c
  else if ch = 10 then newline c
  else if ch = 8 then backspace c
  else putGlyph ch c

def putChar (c : Console) (ch : Byte) : Console :=
  if c.fb.base = 0 ∨ c.cols = 0 ∨ c.rows = 0 then c
  else
    let (taken, c) := handleEscape ch c
    if taken then c else putPlain ch c

/-- The screen is cleared for the first text after graphics. -/
def leaveGfx (c : Console) : Console :=
  if c.gfxModeActive then clearScreen { c with gfxModeActive := false } else c

/-- `console_write`, on the bytes from `s` on. -/
def consoleWrite (s : List Byte) (c : Console) : Console :=
  (s.takeWhile (· ≠ 0)).foldl putChar (leaveGfx c)

/-- The columns of the grid. -/
def textCols (fb : OreFramebuffer) : U32 :=
  if fb.width > leftPad * 2 then (fb.width - leftPad * 2) / cellW else 0

/-- The rows of the grid, below `text_origin_y`. -/
def textRows (fb : OreFramebuffer) (textOriginY : U32) : U32 :=
  if fb.height > textOriginY then (fb.height - textOriginY) / cellH else 0

def oreGfxLogicalWidth : U32 := 640
def oreGfxLogicalHeight : U32 := 480

def gamePalette : List Color :=
  [0x00000000, 0x0011233d, 0x00236fc2, 0x004cc9f0,
    0x002f7d32, 0x006fc45a, 0x007a4a28, 0x007f8a93,
    0x00e8eef2, 0x00f5d76e, 0x00e89242, 0x00d64646,
    0x00ef4fc3, 0x008746d6, 0x002073a8, 0x00fff6a8]

/-- The screen is black before the first picture. -/
def enterGfx (c : Console) : Console :=
  if c.gfxModeActive then c
  else
    let c := fillRect 0 0 c.fb.width c.fb.height 0 c
    { c with gfxModeActive := true }

/-- The loops of `console_gfx_present_indexed16`. -/
def presentRows (buffer : Nat → Byte) (width height x0 y0 : U32) (c : Console) : Console :=
  (span 0 height).foldl
    (fun c y =>
      (span 0 width).foldl
        (fun c x =>
          store ⟨y0 + y, x0 + x, c.fb.index (y0 + y) x0 + x.toNat⟩
            (gamePalette.getD (buffer ((y * width).toNat + x.toNat) &&& 15).toNat 0) c) c) c

/-- `console_gfx_present_indexed16`, with its answer. -/
def consoleGfxPresentIndexed16 (buffer : Option (Nat → Byte)) (width height : U32) (c : Console) :
    Int × Console :=
  match buffer with
  | none => (-oreEinval, c)
  | some buffer =>
    if c.fb.base = 0 then (-oreEinval, c)
    else if width ≠ oreGfxLogicalWidth ∨ height ≠ oreGfxLogicalHeight then (-oreEinval, c)
    else if c.fb.width < width ∨ c.fb.height < height then (-oreEinval, c)
    else
      let x0 := (c.fb.width - width) / 2
      let y0 := (c.fb.height - height) / 2
      let c := enterGfx c
      (0, presentRows buffer width height x0 y0 c)

/-! ## Runs -/

/-- The globals before `console_init`. -/
def boot (pixels : Nat → Color) : Console := { fb := ⟨0, 0, 0, 0⟩, pixels := pixels }

/-- The calls that draw. -/
inductive Call
  | write (s : List Byte)
  | present (buffer : Option (Nat → Byte)) (width height : U32)

def Call.run (c : Console) : Call → Console
  | .write s => consoleWrite s c
  | .present buffer width height => (consoleGfxPresentIndexed16 buffer width height c).2

end Console

/-! ## The keyboard

`console_read_key` takes one byte of the serial line or of the PS/2 controller. The keys
that are held are kept as bits of `input_keys`; several keys share a bit. -/

/-- The globals of the keyboard. -/
structure Input where
  ps2Shift : Bool := false
  ps2E0 : Bool := false
  inputKeys : BitVec 32 := 0
  inputAscii : BitVec 32 := 0
  inputFrame : BitVec 32 := 0
  deriving DecidableEq

namespace Input

def inputSetAscii (ascii : Byte) (s : Input) : Input :=
  { s with inputAscii := ascii.setWidth 32, inputFrame := s.inputFrame + 1 }

def inputSetKey (bit : BitVec 32) (down : Bool) (s : Input) : Input :=
  if bit = 0 then s
  else
    { s with
      inputKeys := if down then s.inputKeys ||| bit else s.inputKeys &&& ~~~bit
      inputFrame := s.inputFrame + 1 }

/-- `ORE_INPUT_LEFT`, `ORE_INPUT_RIGHT`, `ORE_INPUT_UP`, `ORE_INPUT_DOWN`, `ORE_INPUT_FIRE`
and `ORE_INPUT_QUIT` are bits 0 to 5. -/
def inputBitForScancode (sc : Byte) (e0 : Bool) : BitVec 32 :=
  if e0 then
    if sc = 0x4b then 1
    else if sc = 0x4d then 2
    else if sc = 0x48 then 4
    else if sc = 0x50 then 8
    else 0
  else if sc = 0x1e then 1
  else if sc = 0x20 then 2
  else if sc = 0x11 then 4
  else if sc = 0x1f then 8
  else if sc = 0x39 then 16
  else if sc = 0x10 ∨ sc = 0x01 then 32
  else 0

/-- A table of characters as its runs, each with its first scancode. -/
def charAt (rows : List (Nat × String)) (sc : Byte) : Byte :=
  (rows.findSome? fun row =>
    if row.1 ≤ sc.toNat then row.2.toList[sc.toNat - row.1]? else none).elim 0
      fun c => BitVec.ofNat 8 c.toNat

def normal : List (Nat × String) :=
  [(0x01, "\x1b1234567890-=\x08\tqwertyuiop[]\n"), (0x1e, "asdfghjkl;'`"), (0x2b, "\\zxcvbnm,./"),
    (0x39, " ")]

def shifted : List (Nat × String) :=
  [(0x01, "\x1b!@#$%^&*()_+\x08\tQWERTYUIOP\x7b\x7d\n"), (0x1e, "ASDFGHJKL:\"~"),
    (0x2b, "|ZXCVBNM<>?"), (0x39, " ")]

/-- The part of `console_read_key` for a byte of the keyboard. -/
def readScancode (byte : Byte) (s : Input) : Option Byte × Input :=
  if byte = 0xe0 then (none, { s with ps2E0 := true })
  else
    let released := byte &&& 0x80 ≠ 0
    let sc := byte &&& 0x7f
    if sc = 0x2a ∨ sc = 0x36 then (none, { s with ps2Shift := !released, ps2E0 := false })
    else
      let s₁ := s.inputSetKey (inputBitForScancode sc s.ps2E0) !released
      if released ∨ s.ps2E0 then (none, { s₁ with ps2E0 := false })
      else
        let c := charAt (if s.ps2Shift then shifted else normal) sc
        if c ≠ 0 then (some c, s₁.inputSetAscii c) else (none, s₁)

/-- `console_read_key`, with the byte that the serial line has and the one that the
controller has; -1 is `none`. -/
def consoleReadKey (serial ps2 : Option Byte) (s : Input) : Option Byte × Input :=
  match serial, ps2 with
  | some c, _ => (some c, s.inputSetAscii c)
  | none, none => (none, s)
  | none, some byte => s.readScancode byte

/-- Calls of `console_read_key` that find these bytes at the controller. -/
def readAll (s : Input) (bytes : List Byte) : Input :=
  bytes.foldl (fun s byte => (s.consoleReadKey none (some byte)).2) s

end Input

/-! ## Keys -/

/-- A key of scancode set 1. The break code of 0x60 would be the byte of the prefix. -/
structure Key where
  e0 : Bool
  code : Byte
  isCode : code < 0x80 ∧ code ≠ 0x60
  deriving DecidableEq

/-- The bit of `input_keys` that the key is mapped to. -/
def Key.bit (key : Key) : BitVec 32 := Input.inputBitForScancode key.code key.e0

structure KeyEvent where
  key : Key
  down : Bool

/-- What the keyboard sends. -/
def KeyEvent.bytes (e : KeyEvent) : List Byte :=
  (if e.key.e0 then [0xe0] else []) ++ [if e.down then e.key.code else e.key.code ||| 0x80]

/-- The keys that are held after these events. -/
def held (events : List KeyEvent) : Key → Bool :=
  events.foldl (fun keys e => Function.update keys e.key e.down) fun _ => false

/-- The keyboard after these events, from boot on. -/
def typed (events : List KeyEvent) : Input := Input.readAll {} (events.flatMap KeyEvent.bytes)

end OreOS.Kernel
