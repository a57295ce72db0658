import OreOS.Kernel.Console

/-!
# The console stays on its grid

A function that draws leaves all but the pixels alone (`Draws`), and what it stores is
inside of the framebuffer. `put_pixel` checks this itself. `scroll_up` does not: its rows are
those of the grid, and the grid of `console_init` is inside.

The functions that move the cursor keep `Steady`, which holds after `console_init`.
-/

namespace OreOS.Kernel

open OreOS.Lib (Byte)

namespace Console

variable {c c' c'' : Console} {fb : OreFramebuffer}

/-! ## Numbers of loops -/

theorem mem_span {a b i : U32} (h : i ∈ span a b) : a.toNat ≤ i.toNat ∧ i.toNat < b.toNat := by
  obtain ⟨n, hn, rfl⟩ := List.mem_map.mp h
  have hb : b.toNat < 2 ^ 32 := b.isLt
  rw [List.mem_range'_1] at hn
  rw [BitVec.toNat_ofNat, Nat.mod_eq_of_lt (by omega)]
  omega

/-! ## Drawing -/

/-- The pixel is inside, and its index is the one that its row and its column mean when all
indices are below 2^32. -/
structure Inside (fb : OreFramebuffer) (p : PixelAt) : Prop where
  row_lt : p.row < fb.height
  col_lt : p.col < fb.width
  index_eq : fb.width ≤ fb.pixelsPerScanline →
    fb.height.toNat * fb.pixelsPerScanline.toNat ≤ 2 ^ 32 →
      p.index = p.row.toNat * fb.pixelsPerScanline.toNat + p.col.toNat

/-- Only the pixels are new, and they are inside. -/
def Draws (c c' : Console) : Prop :=
  ∃ pixels news, c' = { c with pixels := pixels, stored := c.stored ++ news } ∧
    ∀ p ∈ news, Inside c.fb p

namespace Draws

theorem refl (c : Console) : Draws c c :=
  ⟨c.pixels, [], by rw [List.append_nil], fun _ hp => absurd hp List.not_mem_nil⟩

theorem fb_eq (h : Draws c c') : c'.fb = c.fb := by
  obtain ⟨pixels, news, rfl, -⟩ := h
  rfl

theorem trans (h : Draws c c') (h' : Draws c' c'') : Draws c c'' := by
  obtain ⟨pixels, news, rfl, hin⟩ := h
  obtain ⟨pixels', news', rfl, hin'⟩ := h'
  refine ⟨pixels', news ++ news', by rw [← List.append_assoc], fun p hp => ?_⟩
  rcases List.mem_append.mp hp with hp | hp
  · exact hin p hp
  · exact hin' p hp

theorem foldl {α : Type} {f : Console → α → Console} {l : List α}
    (h : ∀ c', c'.fb = c.fb → ∀ x ∈ l, Draws c' (f c' x)) : Draws c (l.foldl f c) := by
  induction l generalizing c with
  | nil => exact .refl c
  | cons x l ih =>
    have hx : Draws c (f c x) := h c rfl x List.mem_cons_self
    refine hx.trans (ih fun c' hfb y hy => h c' (hfb.trans hx.fb_eq) y ?_)
    exact List.mem_cons_of_mem x hy

end Draws

theorem toNat_mul_add_lt {r k h w : Nat} (n : Nat) (hr : r < h) (hk : k < w) (hw : w ≤ n) :
    r * n + k < h * n :=
  calc r * n + k
    _ < r * n + n := by omega
    _ = (r + 1) * n := (Nat.succ_mul r n).symm
    _ ≤ h * n := Nat.mul_le_mul_right n hr

/-- A pixel inside may be drawn. -/
theorem draws_store {p : PixelAt} (hp : Inside c.fb p) (color : Color) :
    Draws c (store p color c) := by
  refine ⟨_, [p], rfl, fun q hq => ?_⟩
  exact List.mem_singleton.mp hq ▸ hp

theorem inside_index {row col : U32} (hrow : row < fb.height) (hcol : col < fb.width) :
    Inside fb ⟨row, col, fb.index row col⟩ := by
  refine ⟨hrow, hcol, fun hline hsize => ?_⟩
  have hlt := toNat_mul_add_lt fb.pixelsPerScanline.toNat (BitVec.lt_def.mp hrow)
    (BitVec.lt_def.mp hcol) (BitVec.le_def.mp hline)
  rw [OreFramebuffer.index, BitVec.toNat_add, BitVec.toNat_mul, Nat.mod_add_mod]
  exact Nat.mod_eq_of_lt (by omega)

theorem draws_putPixel (x y : U32) (color : Color) (c : Console) :
    Draws c (putPixel x y color c) := by
  rw [putPixel]
  split
  next => exact .refl c
  next h =>
    simp only [not_or, ge_iff_le, BitVec.not_le] at h
    exact draws_store (inside_index h.2.2 h.2.1) color

theorem draws_fillRect (x0 y0 w h : U32) (color : Color) (c : Console) :
    Draws c (fillRect x0 y0 w h color c) :=
  .foldl fun _ _ y _ => .foldl fun c' _ x _ => draws_putPixel x y color c'

theorem draws_putDot (gx gy : U32) (color : Color) (c : Console) :
    Draws c (putDot gx gy color c) :=
  (draws_putPixel _ _ color c).trans <| (draws_putPixel _ _ color _).trans <|
    (draws_putPixel _ _ color _).trans (draws_putPixel _ _ color _)

theorem draws_drawGlyph (px py : U32) (ch : Byte) (color : Color) (c : Console) :
    Draws c (drawGlyph px py ch color c) := by
  refine .foldl fun _ _ y _ => .foldl fun c' _ x _ => ?_
  split
  · exact draws_putDot _ _ color c'
  · exact .refl c'

theorem draws_drawTextPx (x y : U32) (s : List Byte) (color : Color) (c : Console) :
    Draws c (drawTextPx x y s color c) := by
  induction s generalizing x c with
  | nil => exact .refl c
  | cons ch s ih => exact (draws_drawGlyph x y ch color c).trans (ih _ _)

theorem draws_drawStatusBar (c : Console) : Draws c (drawStatusBar c) := by
  rw [drawStatusBar]
  split
  · exact .refl c
  · exact (draws_fillRect _ _ _ _ _ c).trans <| (draws_fillRect _ _ _ _ _ _).trans <|
      (draws_fillRect _ _ _ _ _ _).trans <| (draws_fillRect _ _ _ _ _ _).trans <|
      (draws_drawTextPx _ _ _ _ _).trans <| (draws_drawTextPx _ _ _ _ _).trans
        (draws_drawTextPx _ _ _ _ _)

/-! ## The grid -/

/-- What holds between two characters. -/
structure Steady (fb : OreFramebuffer) (c : Console) : Prop where
  fb_eq : c.fb = fb
  cols_eq : c.cols = textCols fb
  rows_eq : c.rows = textRows fb (topBarH + 16)
  origin_eq : c.textOriginY = topBarH + 16
  cursorX_lt : c.cursorX < c.cols
  cursorY_lt : c.cursorY < c.rows
  params_le : c.escParams.length ≤ 4
  inside : ∀ p ∈ c.stored, Inside fb p

theorem Draws.steady (h : Draws c c') (hc : Steady fb c) : Steady fb c' := by
  obtain ⟨pixels, news, rfl, hin⟩ := h
  refine { hc with inside := fun p hp => ?_ }
  rcases List.mem_append.mp hp with hp | hp
  · exact hc.inside p hp
  · exact hc.fb_eq ▸ hin p hp

theorem textRows_le (h : 0 < (textRows fb (topBarH + 16)).toNat) :
    48 + (textRows fb (topBarH + 16)).toNat * 18 ≤ fb.height.toNat := by
  rw [textRows] at h ⊢
  split
  next hlt =>
    have h48 : (topBarH + 16 : U32).toNat = 48 := rfl
    have h18 : (cellH : U32).toNat = 18 := rfl
    have hheight : 48 < fb.height.toNat := h48 ▸ BitVec.lt_def.mp hlt
    rw [BitVec.toNat_udiv, BitVec.toNat_sub, h48, h18]
    have := fb.height.isLt
    omega
  next hlt =>
    rw [if_neg hlt] at h
    exact absurd h (Nat.lt_irrefl 0)

/-- Scrolling copies rows of the screen. -/
theorem draws_copyRows {srcY copyH : U32} (h : 48 + copyH.toNat ≤ c.fb.height.toNat) :
    Draws c (copyRows srcY (topBarH + 16) copyH c) := by
  refine .foldl fun c₁ hfb₁ y hy => .foldl fun c₂ hfb₂ x hx => ?_
  have hy' := (mem_span hy).2
  refine draws_store (inside_index (BitVec.lt_def.mpr ?_) ?_) _
  · have h48 : (topBarH + 16 : U32).toNat = 48 := rfl
    rw [hfb₂, hfb₁, BitVec.toNat_add, h48]
    omega
  · rw [hfb₂]
    exact BitVec.lt_def.mpr (mem_span hx).2

theorem draws_scrollUp (horigin : c.textOriginY = topBarH + 16)
    (hrows : c.rows = textRows c.fb (topBarH + 16)) : Draws c (scrollUp c) := by
  rw [scrollUp]
  split
  next => exact .refl c
  next h =>
    have hpos : 0 < c.rows.toNat :=
      Nat.pos_of_ne_zero fun h0 => h (.inr (BitVec.eq_of_toNat_eq h0))
    have hle : 48 + c.rows.toNat * 18 ≤ c.fb.height.toNat := by
      rw [hrows] at hpos ⊢
      exact textRows_le hpos
    have hcopy : (if c.rows > 1 then (c.rows - 1) * cellH else 0).toNat ≤ c.rows.toNat * 18 := by
      split
      · have h1 : (1 : U32).toNat = 1 := rfl
        have h18 : (cellH : U32).toNat = 18 := rfl
        rw [BitVec.toNat_mul, BitVec.toNat_sub, h1, h18]
        omega
      · exact Nat.zero_le _
    rw [horigin]
    exact (draws_copyRows (by omega)).trans (draws_fillRect _ _ _ _ _ _)

/-! ## Moving the cursor -/

section

variable (h : Steady fb c)
include h

namespace Steady

theorem rows_pos : 0 < c.rows.toNat :=
  Nat.zero_lt_of_lt (BitVec.lt_def.mp h.cursorY_lt)

theorem cols_pos : 0 < c.cols.toNat :=
  Nat.zero_lt_of_lt (BitVec.lt_def.mp h.cursorX_lt)

theorem cursor {x y : U32} (hx : x < c.cols) (hy : y < c.rows) :
    Steady fb { c with cursorX := x, cursorY := y } :=
  { h with cursorX_lt := hx, cursorY_lt := hy }

theorem escape {params : List U32} (hparams : params.length ≤ 4) (state param : U32) :
    Steady fb { c with escState := state, escParam := param, escParams := params } :=
  { h with params_le := hparams }

theorem paint (fg bg : Color) (inv gfx : Bool) :
    Steady fb { c with currentFg := fg, currentBg := bg, inverse := inv, gfxModeActive := gfx } :=
  { h with }

theorem home : Steady fb { c with cursorX := 0, cursorY := 0 } :=
  h.cursor (BitVec.lt_def.mpr h.cols_pos) (BitVec.lt_def.mpr h.rows_pos)

theorem clearScreen : Steady fb (clearScreen c) := by
  rw [Console.clearScreen]
  split
  · exact h
  · refine home (Draws.steady ?_ h)
    exact (draws_fillRect _ _ _ _ _ c).trans <|
      (draws_drawStatusBar _).trans (draws_fillRect _ _ _ _ _ _)

/-- `newline` from any column: `put_char` calls it with the cursor behind the last one. -/
theorem newline (x : U32) : Steady fb (newline { c with cursorX := x }) := by
  have h0 : (0 : U32) < c.cols := BitVec.lt_def.mpr h.cols_pos
  have h1 : (1 : U32).toNat = 1 := rfl
  have hy := BitVec.lt_def.mp h.cursorY_lt
  rw [Console.newline]
  split
  next hge =>
    -- the cursor is on no row while the screen scrolls, which draws all the same
    obtain ⟨pixels, news, heq, hin⟩ : Draws { c with cursorX := 0, cursorY := c.cursorY + 1 }
        (scrollUp { c with cursorX := 0, cursorY := c.cursorY + 1 }) :=
      draws_scrollUp h.origin_eq (h.fb_eq ▸ h.rows_eq)
    have hlast : c.rows - 1 < c.rows := by bv_omega
    simp only [heq]
    have hdraws : Draws { c with cursorX := 0, cursorY := c.rows - 1 }
        { c with
          cursorX := 0
          cursorY := c.rows - 1
          pixels := pixels
          stored := c.stored ++ news } := ⟨pixels, news, rfl, hin⟩
    exact hdraws.steady (h.cursor h0 hlast)
  next hge =>
    rw [ge_iff_le, BitVec.not_le] at hge
    exact h.cursor h0 hge

/-! ## Escape sequences -/

theorem escReset : Steady fb (escReset c) :=
  @escape c fb h [] (Nat.zero_le 4) 0 0

theorem escPushParam : Steady fb (escPushParam c) := by
  rw [Console.escPushParam]
  split
  next hlt => exact h.escape (by rw [List.length_append, List.length_singleton]; omega) _ 0
  next => exact h.escape h.params_le _ 0

theorem sgrParam (p : U32) : Steady fb (sgrParam c p) := by
  rw [Console.sgrParam]
  repeat' split
  all_goals first | exact h | exact h.paint _ _ _ _

theorem sgrParams (params : List U32) : Steady fb (params.foldl Console.sgrParam c) := by
  induction params generalizing c with
  | nil => exact h
  | cons p params ih => exact ih (h.sgrParam p)

theorem sgrApply : Steady fb (sgrApply c) := by
  rw [Console.sgrApply]
  split
  next => exact h.paint _ _ _ _
  next =>
    exact sgrParams h c.escParams

theorem handleEscape (ch : Byte) : Steady fb (handleEscape ch c).2 := by
  rw [Console.handleEscape]
  repeat' split
  · exact h
  · exact @escape c fb h [] (Nat.zero_le 4) 2 0
  · exact h.escReset
  · exact h.escape h.params_le _ _
  · exact h.escPushParam
  · exact h.clearScreen.escReset
  · exact h.home.escReset
  · exact h.escPushParam.sgrApply.escReset
  · exact h.escReset

/-! ## Characters -/

theorem advance : Steady fb (advance c) := by
  rw [Console.advance]
  split
  next => exact h.newline _
  next hlt =>
    rw [ge_iff_le, BitVec.not_le] at hlt
    exact h.cursor hlt h.cursorY_lt

theorem putGlyph (ch : Byte) : Steady fb (putGlyph ch c) :=
  advance (((draws_fillRect _ _ _ _ _ c).trans (draws_drawGlyph _ _ ch _ _)).steady h)

theorem backspace : Steady fb (backspace c) := by
  refine (draws_fillRect _ _ _ _ _ _).steady ?_
  split
  next hne =>
    have h1 : (1 : U32).toNat = 1 := rfl
    have hx := BitVec.lt_def.mp h.cursorX_lt
    have hpos : c.cursorX.toNat ≠ 0 := fun h0 => hne (BitVec.eq_of_toNat_eq h0)
    refine h.cursor ?_ h.cursorY_lt
    rw [BitVec.lt_def, BitVec.toNat_sub, h1]
    omega
  next => exact h

theorem putPlain (ch : Byte) : Steady fb (putPlain ch c) := by
  rw [Console.putPlain]
  repeat' split
  · exact h.escape h.params_le 1 _
  · exact h
  · exact h.newline _
  · exact h.backspace
  · exact h.putGlyph ch

theorem putChar (ch : Byte) : Steady fb (putChar c ch) := by
  have hesc := h.handleEscape ch
  rw [Console.putChar]
  split
  next => exact h
  next =>
    change Steady fb (if (Console.handleEscape ch c).1 then _ else _)
    split
    · exact hesc
    · exact hesc.putPlain ch

theorem leaveGfx : Steady fb (leaveGfx c) := by
  rw [Console.leaveGfx]
  split
  · exact (h.paint _ _ _ false).clearScreen
  · exact h

theorem consoleWrite (s : List Byte) : Steady fb (consoleWrite s c) := by
  have hputs : ∀ (s : List Byte) (d : Console), Steady fb d → Steady fb (s.foldl Console.putChar d) := by
    intro s
    induction s with
    | nil => exact fun _ hd => hd
    | cons ch s ih => exact fun d hd => ih _ (hd.putChar ch)
  exact hputs _ _ h.leaveGfx

/-! ## Graphics -/

theorem enterGfx : Steady fb (enterGfx c) := by
  rw [Console.enterGfx]
  split
  · exact h
  · exact ((draws_fillRect _ _ _ _ _ c).steady h).paint _ _ _ true

end Steady

end

theorem enterGfx_fb (c : Console) : (enterGfx c).fb = c.fb := by
  rw [enterGfx]
  split
  · rfl
  · exact (draws_fillRect 0 0 c.fb.width c.fb.height 0 c).fb_eq

/-- The picture is inside if its last row and its last column are. -/
theorem draws_presentRows {width height x0 y0 : U32}
    (hx : x0.toNat + width.toNat ≤ c.fb.width.toNat)
    (hy : y0.toNat + height.toNat ≤ c.fb.height.toNat) (buffer : Nat → Byte) :
    Draws c (presentRows buffer width height x0 y0 c) := by
  refine .foldl fun c₁ hfb₁ y hmem => .foldl fun c₂ hfb₂ x hmem' => draws_store ?_ _
  have hylt := (mem_span hmem).2
  have hxlt := (mem_span hmem').2
  have hrow : (y0 + y).toNat = y0.toNat + y.toNat := by bv_omega
  have hcol : (x0 + x).toNat = x0.toNat + x.toNat := by bv_omega
  have hrow_lt : y0 + y < c.fb.height := by bv_omega
  have hx0_lt : x0 < c.fb.width := by bv_omega
  rw [hfb₂, hfb₁]
  refine ⟨hrow_lt, ?_, fun hline hsize => ?_⟩
  · change x0 + x < c.fb.width
    rw [BitVec.lt_def, hcol]
    omega
  · have hindex : c.fb.index (y0 + y) x0 =
        (y0 + y).toNat * c.fb.pixelsPerScanline.toNat + x0.toNat :=
      (inside_index hrow_lt hx0_lt).index_eq hline hsize
    change c.fb.index (y0 + y) x0 + x.toNat = _ * _ + (x0 + x).toNat
    rw [hindex, hcol, Nat.add_assoc]

theorem Steady.present (h : Steady fb c) (buffer : Option (Nat → Byte)) (width height : U32) :
    Steady fb (consoleGfxPresentIndexed16 buffer width height c).2 := by
  cases buffer with
  | none => exact h
  | some buffer =>
    rw [consoleGfxPresentIndexed16]
    repeat' split
    · exact h
    · exact h
    · exact h
    next hsmall =>
      simp only [not_or, BitVec.not_lt] at hsmall
      have hw := BitVec.le_def.mp hsmall.1
      have hh := BitVec.le_def.mp hsmall.2
      refine (draws_presentRows ?_ ?_ buffer).steady h.enterGfx
      all_goals
        rw [enterGfx_fb, BitVec.toNat_udiv, BitVec.toNat_sub_of_le (by assumption)]
        change _ / 2 + _ ≤ _
        omega

/-! ## Runs -/

/-- Every sequence of calls. -/
theorem Steady.run (h : Steady fb c) (calls : List Call) : Steady fb (calls.foldl Call.run c) := by
  induction calls generalizing c with
  | nil => exact h
  | cons call calls ih =>
    cases call with
    | write s => exact ih (h.consoleWrite s)
    | present buffer width height => exact ih (h.present buffer width height)

end Console

end OreOS.Kernel
