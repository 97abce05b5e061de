import MyOSKernel.ConsoleDisplay
import MyOSKernel.SolidFill

/-! A text on the screen. Its characters take cells at increasing positions, so each glyph repairs what
the one before spilled into its cell and stays as it was drawn; only the cell after a character that is
not followed by another loses its first column of pixels. -/

namespace MyOSKernel

/-- The characters of a text with the positions of their cells. -/
def placed (columns : Nat) : Nat → List UInt16 → List (Nat × UInt16)
  | _, [] => []
  | pos, chr :: chars =>
    (if Drawn chr then [(pos, chr)] else []) ++ placed columns (textAdvance columns pos chr) chars

/-- The glyph of a character in the cell at a position. -/
def cellGlyph (font : ConsoleFont) (columns fgColor bgColor : Nat) (cell : Nat × UInt16) : Glyph where
  bitmap := (font.glyphBuffer + cell.2.toNat * font.charsize) % 2 ^ 64
  yOff := cell.1 / columns * font.glyphHeight
  xOff := cell.1 % columns * font.glyphWidth
  width := font.glyphWidth
  height := font.glyphHeight
  fgColor := fgColor
  bgColor := bgColor

/-- The pixel of a cell. -/
def cellX (font : ConsoleFont) (columns pos x : Nat) : Nat := pos % columns * font.glyphWidth + x

def cellY (font : ConsoleFont) (columns pos y : Nat) : Nat := pos / columns * font.glyphHeight + y

section Positions
variable {columns pos i j : Nat} {chr : UInt16} {chars : List UInt16} {cell : Nat × UInt16}

theorem lt_textAdvance (hcolumns : 0 < columns) : pos < textAdvance columns pos chr := by
  unfold textAdvance
  split_ifs
  · exact Nat.lt_mul_of_div_lt (Nat.lt_succ_self _) hcolumns
  · omega
  · omega

theorem le_of_mem_placed (hcolumns : 0 < columns) (h : cell ∈ placed columns pos chars) :
    pos ≤ cell.1 := by
  induction chars generalizing pos with
  | nil => exact absurd h List.not_mem_nil
  | cons chr chars ih =>
      rw [placed, List.mem_append] at h
      obtain hfirst | hrest := h
      · split_ifs at hfirst
        · rw [List.mem_singleton.mp hfirst]
        · exact absurd hfirst List.not_mem_nil
      · exact (lt_textAdvance hcolumns).le.trans (ih hrest)

/-- Each character is placed after the ones before it. -/
theorem placed_ascending (hcolumns : 0 < columns) :
    (placed columns pos chars).Pairwise fun cell cell' => cell.1 < cell'.1 := by
  induction chars generalizing pos with
  | nil => exact List.Pairwise.nil
  | cons chr chars ih =>
      rw [placed]
      split_ifs with hchr
      · rw [List.singleton_append, List.pairwise_cons]
        refine ⟨?_, ih⟩
        intro cell hcell
        exact (lt_textAdvance hcolumns).trans_le (le_of_mem_placed hcolumns hcell)
      · exact ih

/-- A character with a glyph is placed where the text before it ends. -/
theorem mem_placed_iff : cell ∈ placed columns pos chars ↔
    ∃ before after, chars = before ++ cell.2 :: after ∧ Drawn cell.2 ∧
      cell.1 = textPosition columns pos before := by
  induction chars generalizing pos with
  | nil =>
      constructor
      · intro h
        exact absurd h List.not_mem_nil
      · intro h
        obtain ⟨before, after, hsplit, -⟩ := h
        simp at hsplit
  | cons chr chars ih =>
      rw [placed, List.mem_append, ih]
      constructor
      · intro h
        obtain hfirst | ⟨before, after, hsplit, hdrawn, hpos⟩ := h
        · split_ifs at hfirst with hchr
          · obtain rfl := List.mem_singleton.mp hfirst
            exact ⟨[], chars, rfl, hchr, rfl⟩
          · exact absurd hfirst List.not_mem_nil
        · exact ⟨chr :: before, after, by rw [hsplit, List.cons_append], hdrawn, hpos⟩
      · intro h
        obtain ⟨before, after, hsplit, hdrawn, hpos⟩ := h
        cases before with
        | nil =>
            obtain ⟨rfl, rfl⟩ : chr = cell.2 ∧ chars = after := by simpa using hsplit
            left
            rw [if_pos hdrawn]
            exact List.mem_singleton.mpr (Prod.ext hpos rfl)
        | cons first before =>
            obtain ⟨rfl, hsplit'⟩ : chr = first ∧ chars = before ++ cell.2 :: after := by
              simpa using hsplit
            exact Or.inr ⟨before, after, hsplit', hdrawn, hpos⟩

theorem placed_replicate (n : Nat) : placed columns pos (List.replicate n blankChar) =
    (List.range n).map fun i => (pos + i, blankChar) := by
  induction n generalizing pos with
  | zero => rfl
  | succ n ih =>
      rw [List.replicate_succ, placed, if_pos drawn_blankChar, textAdvance_of_drawn drawn_blankChar, ih,
        List.range_succ_eq_map, List.map_cons, List.map_map, List.singleton_append]
      congr 1
      apply List.map_congr_left
      intro i _
      show (pos + 1 + i, blankChar) = (pos + (i + 1), blankChar)
      rw [Nat.add_assoc, Nat.add_comm 1 i]

/-- The next position is in the next column, or on the next line. -/
theorem succ_column (hcolumns : 0 < columns) (h : (j + 1) % columns ≠ 0) :
    (j + 1) % columns = j % columns + 1 ∧ (j + 1) / columns = j / columns := by
  have hlt := Nat.mod_lt j hcolumns
  have hpos := Nat.div_add_mod j columns
  have hsplit : j + 1 = columns * (j / columns) + (j % columns + 1) := by omega
  have hless : j % columns + 1 < columns := by
    by_contra hend
    have hfull : j % columns + 1 = columns := by omega
    rw [hsplit, hfull, Nat.mul_add_mod, Nat.mod_self] at h
    exact h rfl
  constructor
  · rw [hsplit, Nat.mul_add_mod, Nat.mod_eq_of_lt hless]
  · rw [hsplit, Nat.mul_add_div hcolumns, Nat.div_eq_of_lt hless, Nat.add_zero]

variable (columns) in
theorem eq_of_div_mod (hdiv : i / columns = j / columns) (hmod : i % columns = j % columns) :
    i = j := by
  rw [← Nat.div_add_mod i columns, ← Nat.div_add_mod j columns, hdiv, hmod]

end Positions

section Cells
variable {fb : GraphicsFramebuffer} {font : ConsoleFont} {lines columns i x y fgColor bgColor : Nat}
  {cell : Nat × UInt16} {mem : Memory}

/-- A screen for text: cells with pixels, and scanlines longer than a line of cells. -/
structure TextScreen (fb : GraphicsFramebuffer) (font : ConsoleFont) (lines columns : Nat) : Prop
    extends ScreenFits fb font lines columns where
  glyphHeight : 0 < font.glyphHeight
  glyphWidth : 0 < font.glyphWidth
  columns_pos : 0 < columns
  padded : columns * font.glyphWidth < fb.pixelsPerScanline

theorem TextScreen.lines_lt (h : TextScreen fb font lines columns) : lines < 2 ^ 16 := by
  have hheight := h.height
  have hlt := h.height_lt
  have hle : lines * 1 ≤ lines * font.glyphHeight := Nat.mul_le_mul_left _ h.glyphHeight
  omega

theorem TextScreen.columns_lt (h : TextScreen fb font lines columns) : columns < 2 ^ 16 := by
  have hpadded := h.padded
  have hlt := h.scanline_lt
  have hle : columns * 1 ≤ columns * font.glyphWidth := Nat.mul_le_mul_left _ h.glyphWidth
  omega

/-- Where the scanlines have offsets of type `int`, the cells have a number of that type. -/
theorem TextScreen.cells_lt (h : TextScreen fb font lines columns)
    (hrows : RowsDefined fb font (lines - 1)) : lines * columns < 2 ^ 31 := by
  have hoffset := hrows h.glyphHeight h.glyphWidth
  have hcolumns := h.columns_lt
  have hscanline : columns ≤ fb.pixelsPerScanline := by
    have hpadded := h.padded
    have hle : columns * 1 ≤ columns * font.glyphWidth := Nat.mul_le_mul_left _ h.glyphWidth
    omega
  have hline : lines - 1 ≤ (lines - 1) * font.glyphHeight + font.glyphHeight - 1 := by
    have hle : (lines - 1) * 1 ≤ (lines - 1) * font.glyphHeight := Nat.mul_le_mul_left _ h.glyphHeight
    have hheight := h.glyphHeight
    omega
  have hcells : (lines - 1) * columns ≤
      ((lines - 1) * font.glyphHeight + font.glyphHeight - 1) * fb.pixelsPerScanline :=
    Nat.mul_le_mul hline hscanline
  rcases Nat.eq_zero_or_pos lines with rfl | hpos
  · rw [Nat.zero_mul]
    decide
  · have hlast : lines * columns = (lines - 1) * columns + columns := by
      rw [← Nat.succ_mul, Nat.succ_eq_add_one, Nat.sub_add_cancel hpos]
    omega

/-- The bitmaps of the characters lie apart from what glyphs are stored to. -/
def FontApart (fb : GraphicsFramebuffer) (font : ConsoleFont) (cells : List (Nat × UInt16)) : Prop :=
  ∀ cell ∈ cells, ∀ y < font.glyphHeight,
    ((font.glyphBuffer + cell.2.toNat * font.charsize) % 2 ^ 64 + y) % 2 ^ 64 ∉ reachedBytes fb

theorem TextScreen.cell_lt (h : TextScreen fb font lines columns) (hi : i < lines * columns)
    (hx : x < font.glyphWidth) (hy : y < font.glyphHeight) :
    cellX font columns i x < fb.width ∧ cellY font columns i y < fb.height := by
  have hcolumn : (i % columns + 1) * font.glyphWidth ≤ columns * font.glyphWidth :=
    Nat.mul_le_mul_right _ (Nat.mod_lt i h.columns_pos)
  have hline : (i / columns + 1) * font.glyphHeight ≤ lines * font.glyphHeight :=
    Nat.mul_le_mul_right _ (Nat.div_lt_of_lt_mul (by rwa [Nat.mul_comm]))
  have hwidth := h.width
  have hheight := h.height
  rw [Nat.add_mul, Nat.one_mul] at hcolumn hline
  unfold cellX cellY
  omega

theorem TextScreen.drawable (h : TextScreen fb font lines columns) (hfg : fgColor < 2 ^ 32)
    (hbg : bgColor < 2 ^ 32) {cells : List (Nat × UInt16)} (hcell : cell ∈ cells)
    (hgrid : cell.1 < lines * columns) (hapart : FontApart fb font cells) :
    (cellGlyph font columns fgColor bgColor cell).Drawable fb := by
  have hlast := h.cell_lt hgrid (show font.glyphWidth - 1 < font.glyphWidth by
      have := h.glyphWidth
      omega)
    (show font.glyphHeight - 1 < font.glyphHeight by
      have := h.glyphHeight
      omega)
  have hwidth := h.glyphWidth
  have hheight := h.glyphHeight
  have hscanline := h.scanline
  have hscanline_lt := h.scanline_lt
  unfold cellX cellY at hlast
  exact {
    onScreen := {
      width := by
        show cell.1 % columns * font.glyphWidth + font.glyphWidth ≤ fb.width
        omega
      height := by
        show cell.1 / columns * font.glyphHeight + font.glyphHeight ≤ fb.height
        omega
      xOff_lt := by omega
      yOff_lt := h.height_lt }
    width := hwidth
    apart := hapart cell hcell
    fgColor := hfg
    bgColor := hbg }

/-- A pixel of a cell is in the cell of a glyph if the cells are the same. -/
theorem inCell_cellGlyph_iff (hx : x < font.glyphWidth) (hy : y < font.glyphHeight) :
    (cellGlyph font columns fgColor bgColor cell).InCell (cellX font columns i x)
      (cellY font columns i y) ↔ cell.1 = i := by
  constructor
  · intro hcell
    obtain ⟨⟨hleft, hright⟩, htop, hbottom⟩ := hcell
    simp only [cellGlyph, cellX, cellY] at hleft hright htop hbottom
    apply eq_of_div_mod columns
    · calc cell.1 / columns = (i / columns * font.glyphHeight + y) / font.glyphHeight :=
            (Nat.div_eq_of_lt_le htop (by rw [Nat.add_mul, Nat.one_mul]; exact hbottom)).symm
        _ = i / columns := linear_div hy
    · calc cell.1 % columns = (i % columns * font.glyphWidth + x) / font.glyphWidth :=
            (Nat.div_eq_of_lt_le hleft (by rw [Nat.add_mul, Nat.one_mul]; exact hright)).symm
        _ = i % columns := linear_div hx
  · rintro rfl
    exact ⟨⟨Nat.le_add_right _ _, Nat.add_lt_add_left hx _⟩, Nat.le_add_right _ _,
      Nat.add_lt_add_left hy _⟩

/-- It follows a row of a glyph if it is the first of the next cell on the line. -/
theorem TextScreen.follows_cellGlyph_iff (h : TextScreen fb font lines columns)
    (hi : i < lines * columns) (hx : x < font.glyphWidth) (hy : y < font.glyphHeight) :
    (∃ y' < font.glyphHeight, (cellGlyph font columns fgColor bgColor cell).Follows fb y'
        (cellX font columns i x) (cellY font columns i y)) ↔
      i = cell.1 + 1 ∧ x = 0 ∧ i % columns ≠ 0 := by
  have hscanline := h.scanline
  have hpadded := h.padded
  have hpixel := (h.cell_lt hi hx hy).1
  have hcolumn : (cell.1 % columns + 1) * font.glyphWidth ≤ columns * font.glyphWidth :=
    Nat.mul_le_mul_right _ (Nat.mod_lt _ h.columns_pos)
  constructor
  · intro hfollows
    obtain ⟨y', hy', hindex⟩ := hfollows
    have hright : font.glyphWidth + cell.1 % columns * font.glyphWidth < fb.pixelsPerScanline := by
      rw [Nat.add_mul, Nat.one_mul] at hcolumn
      omega
    obtain ⟨hsameX, hsameY⟩ := pixelIndex_inj (by omega) hright hindex
    simp only [cellGlyph, cellX, cellY] at hsameX hsameY
    have hnext : i % columns * font.glyphWidth + x = (cell.1 % columns + 1) * font.glyphWidth + 0 := by
      rw [hsameX, Nat.add_mul, Nat.one_mul, Nat.add_zero, Nat.add_comm]
    have hmod : i % columns = cell.1 % columns + 1 := by
      calc i % columns = (i % columns * font.glyphWidth + x) / font.glyphWidth :=
            (linear_div hx).symm
        _ = ((cell.1 % columns + 1) * font.glyphWidth + 0) / font.glyphWidth := by rw [hnext]
        _ = cell.1 % columns + 1 := linear_div h.glyphWidth
    have hdiv : i / columns = cell.1 / columns := by
      calc i / columns = (i / columns * font.glyphHeight + y) / font.glyphHeight :=
            (linear_div hy).symm
        _ = (cell.1 / columns * font.glyphHeight + y') / font.glyphHeight := by
            rw [hsameY, Nat.add_comm]
        _ = cell.1 / columns := linear_div hy'
    refine ⟨?_, ?_, by omega⟩
    · rw [← Nat.div_add_mod i columns, hdiv, hmod, ← Nat.add_assoc, Nat.div_add_mod]
    · rw [hmod] at hnext
      omega
  · intro hbeside
    obtain ⟨rfl, rfl, hmod⟩ := hbeside
    obtain ⟨hmod', hdiv⟩ := succ_column h.columns_pos hmod
    refine ⟨y, hy, ?_⟩
    simp only [Glyph.Follows, cellGlyph, cellX, cellY, hmod', hdiv]
    congr 1
    · rw [Nat.add_mul, Nat.one_mul, Nat.add_zero, Nat.add_comm]
    · exact Nat.add_comm _ _

/-- What the glyph of a cell does to a pixel of a cell. -/
theorem TextScreen.leaves_cellGlyph (h : TextScreen fb font lines columns)
    (hi : i < lines * columns) (hx : x < font.glyphWidth) (hy : y < font.glyphHeight) :
    (cellGlyph font columns fgColor bgColor cell).leaves fb mem (cellX font columns i x)
        (cellY font columns i y) =
      if cell.1 = i then some (glyphColor (cellGlyph font columns fgColor bgColor cell) mem x y)
      else if i = cell.1 + 1 ∧ x = 0 ∧ i % columns ≠ 0 then some 0 else none := by
  unfold Glyph.leaves
  by_cases hcell : cell.1 = i
  · rw [if_pos ((inCell_cellGlyph_iff hx hy).mpr hcell), if_pos hcell, ← hcell]
    simp only [cellGlyph, cellX, cellY, Nat.add_sub_cancel_left]
  · rw [if_neg fun hc => hcell ((inCell_cellGlyph_iff hx hy).mp hc), if_neg hcell]
    exact if_congr (h.follows_cellGlyph_iff hi hx hy) rfl rfl

end Cells

/-- The cells show the characters, and the others what they showed but for the first column of pixels
after a character. -/
structure ShowsText (fb : GraphicsFramebuffer) (font : ConsoleFont) (lines columns fgColor bgColor : Nat)
    (cells : List (Nat × UInt16)) (mem mem' : Memory) : Prop where
  glyph : ∀ cell ∈ cells, ∀ x < font.glyphWidth, ∀ y < font.glyphHeight,
    readPixel fb mem' (cellX font columns cell.1 x) (cellY font columns cell.1 y) =
      glyphColor (cellGlyph font columns fgColor bgColor cell) mem x y
  beside : ∀ cell ∈ cells, (cell.1 + 1) % columns ≠ 0 → (∀ cell' ∈ cells, cell'.1 ≠ cell.1 + 1) →
    ∀ y < font.glyphHeight, readPixel fb mem' (cellX font columns (cell.1 + 1) 0)
      (cellY font columns (cell.1 + 1) y) = 0
  others : ∀ i < lines * columns, (∀ cell ∈ cells, cell.1 ≠ i) → ∀ x < font.glyphWidth,
    ∀ y < font.glyphHeight, (x = 0 → i % columns ≠ 0 → ∀ cell ∈ cells, i ≠ cell.1 + 1) →
      readPixel fb mem' (cellX font columns i x) (cellY font columns i y) =
        readPixel fb mem (cellX font columns i x) (cellY font columns i y)

section Text
variable {fb : GraphicsFramebuffer} {font : ConsoleFont} {s s' : ConsoleState} {cursor : ConsoleCursor}
  {chr : UInt16} {chars : List UInt16} {lines columns pos i fgColor bgColor : Nat}
  {cells : List (Nat × UInt16)} {mem mem' : Memory}

theorem ConsoleCursor.At.afterChar (hat : cursor.At lines columns pos) (hcolumns : 0 < columns)
    (hcolumns' : columns < 2 ^ 16) (chr : UInt16) :
    (cursor.afterChar chr).At lines columns (textAdvance columns pos chr) := by
  unfold ConsoleCursor.afterChar textAdvance
  split_ifs
  · exact hat.newLine hcolumns
  · exact ((hat.next hcolumns hcolumns').next hcolumns hcolumns').next hcolumns hcolumns'
  · exact hat.next hcolumns hcolumns'

theorem ConsoleCursor.next_colors :
    cursor.next.fgColor = cursor.fgColor ∧ cursor.next.bgColor = cursor.bgColor := by
  unfold ConsoleCursor.next
  split_ifs
  · exact ⟨rfl, rfl⟩
  · exact ⟨rfl, rfl⟩

theorem ConsoleCursor.afterChar_colors : (cursor.afterChar chr).fgColor = cursor.fgColor ∧
    (cursor.afterChar chr).bgColor = cursor.bgColor := by
  unfold ConsoleCursor.afterChar
  split_ifs
  · exact ⟨rfl, rfl⟩
  · constructor
    · rw [next_colors.1, next_colors.1, next_colors.1]
    · rw [next_colors.2, next_colors.2, next_colors.2]
  · exact next_colors

theorem ConsoleCursor.afterChars_colors : (cursor.afterChars chars).fgColor = cursor.fgColor ∧
    (cursor.afterChars chars).bgColor = cursor.bgColor := by
  induction chars generalizing cursor with
  | nil => exact ⟨rfl, rfl⟩
  | cons chr chars ih =>
      obtain ⟨hfg, hbg⟩ : ((cursor.afterChar chr).afterChars chars).fgColor =
          (cursor.afterChar chr).fgColor ∧ _ := ih
      exact ⟨hfg.trans afterChar_colors.1, hbg.trans afterChar_colors.2⟩

theorem TextScreen.glyphAt_eq (h : TextScreen fb font lines columns)
    (hat : cursor.At lines columns pos) (hpos : pos < lines * columns) : glyphAt font cursor chr =
      cellGlyph font columns cursor.fgColor cursor.bgColor (pos, chr) := by
  have hlast := h.cell_lt hpos h.glyphWidth h.glyphHeight
  have hline : cursor.line = pos / columns := by
    rw [hat.line]
    exact Nat.mod_eq_of_lt (div_columns_lt h.lines_lt hpos.le)
  have hscanline := h.scanline
  have hscanline_lt := h.scanline_lt
  have hheight_lt := h.height_lt
  unfold cellX cellY at hlast
  have hxOff : pos % columns * font.glyphWidth % 2 ^ 16 = pos % columns * font.glyphWidth :=
    Nat.mod_eq_of_lt (by omega)
  have hyOff : pos / columns * font.glyphHeight % 2 ^ 16 = pos / columns * font.glyphHeight :=
    Nat.mod_eq_of_lt (by omega)
  rw [glyphAt, cellGlyph, hline, hat.column, hxOff, hyOff]

/-- The glyphs of a text are those of its cells. -/
theorem TextScreen.textGlyphs_eq (h : TextScreen fb font lines columns)
    (hat : cursor.At lines columns pos)
    (hgrid : ∀ cell ∈ placed columns pos chars, cell.1 < lines * columns) :
    textGlyphs font cursor chars =
      (placed columns pos chars).map (cellGlyph font columns cursor.fgColor cursor.bgColor) := by
  induction chars generalizing cursor pos with
  | nil => rfl
  | cons chr chars ih =>
      have hrest := ih (hat.afterChar h.columns_pos h.columns_lt chr) fun cell hcell =>
        hgrid cell (by rw [placed]; exact List.mem_append_right _ hcell)
      rw [ConsoleCursor.afterChar_colors.1, ConsoleCursor.afterChar_colors.2] at hrest
      rw [textGlyphs, placed, List.map_append, hrest]
      congr 1
      split_ifs with hchr
      · rw [List.map_singleton, h.glyphAt_eq hat]
        exact hgrid (pos, chr) (by rw [placed, if_pos hchr]; exact List.mem_cons_self)
      · rfl

/-- Glyphs in cells at increasing positions show the text. -/
theorem TextScreen.showsText (h : TextScreen fb font lines columns)
    (hasc : cells.Pairwise fun cell cell' => cell.1 < cell'.1)
    (hgrid : ∀ cell ∈ cells, cell.1 < lines * columns) (hapart : FontApart fb font cells)
    (hfg : fgColor < 2 ^ 32) (hbg : bgColor < 2 ^ 32)
    (hrun : drawGlyphs fb mem (cells.map (cellGlyph font columns fgColor bgColor)) = some mem') :
    ShowsText fb font lines columns fgColor bgColor cells mem mem' := by
  have hdrawable : ∀ glyph ∈ cells.map (cellGlyph font columns fgColor bgColor),
      glyph.Drawable fb := by
    intro glyph hglyph
    obtain ⟨cell, hcell, rfl⟩ := List.mem_map.mp hglyph
    exact h.drawable hfg hbg hcell (hgrid cell hcell) hapart
  have hpixel {i x y : Nat} (hi : i < lines * columns) (hx : x < font.glyphWidth)
      (hy : y < font.glyphHeight) :=
    showsLast_of_drawGlyphs h.pixelMode hdrawable hrun (h.cell_lt hi hx hy).1 (h.cell_lt hi hx hy).2
  -- the glyph of a cell is the last to reach a pixel when the later cells miss it
  have hlast {cell : Nat × UInt16} {i x y color : Nat} (hcell : cell ∈ cells)
      (hi : i < lines * columns) (hx : x < font.glyphWidth) (hy : y < font.glyphHeight)
      (hcolor : (cellGlyph font columns fgColor bgColor cell).leaves fb mem (cellX font columns i x)
        (cellY font columns i y) = some color)
      (hlater : ∀ cell' ∈ cells, cell.1 < cell'.1 → cell'.1 ≠ i ∧ i ≠ cell'.1 + 1) :
      readPixel fb mem' (cellX font columns i x) (cellY font columns i y) = color := by
    obtain ⟨before, after, rfl⟩ := List.append_of_mem hcell
    apply (hpixel hi hx hy).last _ _ _ _ (by rw [List.map_append, List.map_cons]) hcolor
    intro later hmem
    obtain ⟨cell', hcell', rfl⟩ := List.mem_map.mp hmem
    have hlt := (List.pairwise_cons.mp (List.pairwise_append.mp hasc).2.1).1 cell' hcell'
    obtain ⟨hne, hbeside⟩ := hlater cell'
      (List.mem_append_right _ (List.mem_cons_of_mem _ hcell')) hlt
    rw [h.leaves_cellGlyph hi hx hy, if_neg hne, if_neg fun hc => hbeside hc.1]
  refine ⟨?_, ?_, ?_⟩
  · intro cell hcell x hx y hy
    apply hlast hcell (hgrid cell hcell) hx hy
    · rw [h.leaves_cellGlyph (hgrid cell hcell) hx hy, if_pos rfl]
    · intro cell' _ hlt
      omega
  · intro cell hcell hmod hfree y hy
    have hdiv := (succ_column h.columns_pos hmod).2
    have hnext : cell.1 + 1 < lines * columns := by
      apply Nat.lt_mul_of_div_lt _ h.columns_pos
      rw [hdiv]
      exact Nat.div_lt_of_lt_mul (by rw [Nat.mul_comm]; exact hgrid cell hcell)
    apply hlast hcell hnext h.glyphWidth hy
    · rw [h.leaves_cellGlyph hnext h.glyphWidth hy, if_neg (by omega), if_pos ⟨rfl, rfl, hmod⟩]
    · intro cell' hcell' hlt
      exact ⟨hfree cell' hcell', by omega⟩
  · intro i hi hfree x hx y hy hbeside
    apply (hpixel hi hx hy).untouched
    intro glyph hglyph
    obtain ⟨cell, hcell, rfl⟩ := List.mem_map.mp hglyph
    rw [h.leaves_cellGlyph hi hx hy, if_neg (hfree cell hcell), if_neg]
    intro hc
    exact hbeside hc.2.1 hc.2.2 cell hcell hc.1

/-- Printing a text whose cells lie in the grid shows it, and changes no byte elsewhere. -/
theorem TextScreen.showsText_of_printChars (h : TextScreen fb font lines columns)
    (hat : s.cursor.At lines columns pos) (hfg : s.cursor.fgColor < 2 ^ 32)
    (hbg : s.cursor.bgColor < 2 ^ 32)
    (hgrid : ∀ cell ∈ placed columns pos chars, cell.1 < lines * columns)
    (hapart : FontApart fb font (placed columns pos chars))
    (hrun : printChars fb font s chars = some s') :
    ShowsText fb font lines columns s.cursor.fgColor s.cursor.bgColor (placed columns pos chars) s.mem
        s'.mem ∧
      (∀ b ∉ framebufferBytes fb, s'.mem.byte b = s.mem.byte b) ∧
      s'.cursor.fgColor = s.cursor.fgColor ∧ s'.cursor.bgColor = s.cursor.bgColor := by
  obtain ⟨hdraw, hcursor⟩ := drawGlyphs_of_printChars hrun
  rw [h.textGlyphs_eq hat hgrid] at hdraw
  refine ⟨h.showsText (placed_ascending h.columns_pos) hgrid hapart hfg hbg hdraw, ?_, ?_⟩
  · intro b hb
    apply drawGlyphs_byte _ hdraw
    intro glyph hglyph mem mem' hrun
    obtain ⟨cell, hcell, rfl⟩ := List.mem_map.mp hglyph
    have hdrawable := h.drawable hfg hbg hcell (hgrid cell hcell) hapart
    -- the scanlines are padded
    have hcolumn : (cell.1 % columns + 1) * font.glyphWidth ≤ columns * font.glyphWidth :=
      Nat.mul_le_mul_right _ (Nat.mod_lt _ h.columns_pos)
    rw [Nat.add_mul, Nat.one_mul] at hcolumn
    exact hdrawable.printGlyph_inside h.pixelMode hrun (hcolumn.trans_lt h.padded) hb
  · rw [hcursor]
    exact ConsoleCursor.afterChars_colors

end Text

/-- The cells show the characters, and the others blanks but for the first column of pixels after a
character. -/
structure ShowsPage (fb : GraphicsFramebuffer) (font : ConsoleFont) (lines columns fgColor bgColor : Nat)
    (cells : List (Nat × UInt16)) (mem mem' : Memory) : Prop where
  glyph : ∀ cell ∈ cells, ∀ x < font.glyphWidth, ∀ y < font.glyphHeight,
    readPixel fb mem' (cellX font columns cell.1 x) (cellY font columns cell.1 y) =
      glyphColor (cellGlyph font columns fgColor bgColor cell) mem x y
  beside : ∀ cell ∈ cells, (cell.1 + 1) % columns ≠ 0 → (∀ cell' ∈ cells, cell'.1 ≠ cell.1 + 1) →
    ∀ y < font.glyphHeight, readPixel fb mem' (cellX font columns (cell.1 + 1) 0)
      (cellY font columns (cell.1 + 1) y) = 0
  blank : ∀ i < lines * columns, (∀ cell ∈ cells, cell.1 ≠ i) → ∀ x < font.glyphWidth,
    ∀ y < font.glyphHeight, (x = 0 → i % columns ≠ 0 → ∀ cell ∈ cells, i ≠ cell.1 + 1) →
      readPixel fb mem' (cellX font columns i x) (cellY font columns i y) =
        glyphColor (cellGlyph font columns fgColor bgColor (i, blankChar)) mem x y

section Page
variable {fb : GraphicsFramebuffer} {font : ConsoleFont} {s start : ConsoleState}
  {chars : List UInt16} {lines columns pos : Nat}

/-- A text whose cells lie in the grid is printed. -/
theorem TextScreen.printChars_isSome (h : TextScreen fb font lines columns)
    (hat : s.cursor.At lines columns pos) (hrows : RowsDefined fb font (lines - 1))
    (hgrid : ∀ cell ∈ placed columns pos chars, cell.1 < lines * columns) :
    ∃ s', printChars fb font s chars = some s' := by
  apply MyOSKernel.printChars_isSome h.toScreenFits _ hat h.columns_pos h.columns_lt
  · intro before c after hsplit hdrawn
    have hlt := hgrid (textPosition columns pos before, c)
      (mem_placed_iff.mpr ⟨before, after, hsplit, hdrawn, rfl⟩)
    exact (Nat.mod_le _ _).trans_lt (Nat.div_lt_of_lt_mul (by rwa [Nat.mul_comm]))
  · exact fun line hline => hrows.of_le (Nat.le_sub_one_of_lt hline)

/-- Clearing shows a blank in each cell. -/
theorem TextScreen.clearScreen_spec (h : TextScreen fb font lines columns)
    (hcursor : s.cursor.Of lines columns) (hfg : s.cursor.fgColor < 2 ^ 32)
    (hbg : s.cursor.bgColor < 2 ^ 32) (hrows : RowsDefined fb font (lines - 1))
    (hapart : FontApart fb font [(0, blankChar)]) :
    ∃ start, clearScreen fb font s = some start ∧ start.cursor.At lines columns 0 ∧
      start.cursor.fgColor = s.cursor.fgColor ∧ start.cursor.bgColor = s.cursor.bgColor ∧
      (∀ b ∉ framebufferBytes fb, start.mem.byte b = s.mem.byte b) ∧
      ∀ i < lines * columns, ∀ x < font.glyphWidth, ∀ y < font.glyphHeight,
        readPixel fb start.mem (cellX font columns i x) (cellY font columns i y) =
          glyphColor (cellGlyph font columns s.cursor.fgColor s.cursor.bgColor (i, blankChar)) s.mem
            x y := by
  have hat : s.cursor.reset.At lines columns 0 := at_reset hcursor.maxLines hcursor.maxColumns
  have hplaced : placed columns 0 (List.replicate (lines * columns) blankChar) =
      (List.range (lines * columns)).map fun i => (0 + i, blankChar) := placed_replicate _
  have hgrid : ∀ cell ∈ placed columns 0 (List.replicate (lines * columns) blankChar),
      cell.1 < lines * columns := by
    intro cell hcell
    rw [hplaced] at hcell
    obtain ⟨i, hi, rfl⟩ := List.mem_map.mp hcell
    show 0 + i < lines * columns
    rw [Nat.zero_add]
    exact List.mem_range.mp hi
  have hapart' : FontApart fb font (placed columns 0 (List.replicate (lines * columns) blankChar)) := by
    intro cell hcell y hy
    rw [hplaced] at hcell
    obtain ⟨i, -, rfl⟩ := List.mem_map.mp hcell
    exact hapart (0, blankChar) List.mem_cons_self y hy
  obtain ⟨t, hchars⟩ := h.printChars_isSome (s := { s with cursor := s.cursor.reset }) hat hrows hgrid
  obtain ⟨hshows, hother, hfg', hbg'⟩ := h.showsText_of_printChars
    (s := { s with cursor := s.cursor.reset }) hat hfg hbg hgrid hapart' hchars
  have hend := (printChars_eq_some h.toScreenFits hchars hat h.columns_pos h.columns_lt).1
  refine ⟨{ t with cursor := t.cursor.reset }, ?_, at_reset hend.maxLines hend.maxColumns, hfg', hbg',
    hother, ?_⟩
  · rw [clearScreen_eq_some_iff, hcursor.maxLines, hcursor.maxColumns]
    exact ⟨h.cells_lt hrows, t, hchars, rfl⟩
  · intro i hi x hx y hy
    have hcell : (i, blankChar) ∈ placed columns 0 (List.replicate (lines * columns) blankChar) := by
      rw [hplaced]
      exact List.mem_map.mpr ⟨i, List.mem_range.mpr hi, by rw [Nat.zero_add]⟩
    exact hshows.glyph _ hcell x hx y hy

/-- The glyphs of the text come from bitmaps the drawing leaves. -/
theorem FontApart.glyphColor_eq {cells : List (Nat × UInt16)} {cell : Nat × UInt16} {mem mem' : Memory}
    {fgColor bgColor x y : Nat} (hapart : FontApart fb font cells) (hcell : cell ∈ cells)
    (hy : y < font.glyphHeight) (hother : ∀ b ∉ framebufferBytes fb, mem'.byte b = mem.byte b) :
    glyphColor (cellGlyph font columns fgColor bgColor cell) mem' x y =
      glyphColor (cellGlyph font columns fgColor bgColor cell) mem x y :=
  glyphColor_congr (hother _ fun hmem => hapart cell hcell y hy (framebufferBytes_subset hmem))

/-- A text on a screen of blanks. -/
theorem ShowsText.page {cells : List (Nat × UInt16)} {mem startMem mem' : Memory}
    {fgColor bgColor : Nat}
    (hshows : ShowsText fb font lines columns fgColor bgColor cells startMem mem')
    (hapart : FontApart fb font ((0, blankChar) :: cells))
    (hother : ∀ b ∉ framebufferBytes fb, startMem.byte b = mem.byte b)
    (hblanks : ∀ i < lines * columns, ∀ x < font.glyphWidth, ∀ y < font.glyphHeight,
      readPixel fb startMem (cellX font columns i x) (cellY font columns i y) =
        glyphColor (cellGlyph font columns fgColor bgColor (i, blankChar)) mem x y) :
    ShowsPage fb font lines columns fgColor bgColor cells mem mem' := by
  refine ⟨?_, hshows.beside, ?_⟩
  · intro cell hcell x hx y hy
    rw [hshows.glyph cell hcell x hx y hy,
      hapart.glyphColor_eq (List.mem_cons_of_mem _ hcell) hy hother]
  · intro i hi hfree x hx y hy hbeside
    rw [hshows.others i hi hfree x hx y hy hbeside, hblanks i hi x hx y hy]

/-- A text printed on the cleared screen is shown whenever the positions of its characters lie in the
grid, whatever the new lines and tabs, when the scanlines are longer than a line of cells and have
offsets of type `int` and the bitmaps lie apart from the framebuffer. -/
theorem cleared_screen_shows_text (h : TextScreen fb font lines columns)
    (hcursor : s.cursor.Of lines columns) (hfg : s.cursor.fgColor < 2 ^ 32)
    (hbg : s.cursor.bgColor < 2 ^ 32) (hrows : RowsDefined fb font (lines - 1))
    (hgrid : ∀ cell ∈ placed columns 0 chars, cell.1 < lines * columns)
    (hapart : FontApart fb font ((0, blankChar) :: placed columns 0 chars)) :
    ∃ start s', clearScreen fb font s = some start ∧ printChars fb font start chars = some s' ∧
      ShowsPage fb font lines columns s.cursor.fgColor s.cursor.bgColor (placed columns 0 chars) s.mem
        s'.mem ∧
      ∀ b ∉ framebufferBytes fb, s'.mem.byte b = s.mem.byte b := by
  have hblank : FontApart fb font [(0, blankChar)] := by
    intro cell hcell
    obtain rfl := List.mem_singleton.mp hcell
    exact hapart _ List.mem_cons_self
  have htext : FontApart fb font (placed columns 0 chars) :=
    fun cell hcell => hapart cell (List.mem_cons_of_mem _ hcell)
  obtain ⟨start, hclear, hat, hfg', hbg', hother, hblanks⟩ :=
    h.clearScreen_spec hcursor hfg hbg hrows hblank
  obtain ⟨s', hchars⟩ := h.printChars_isSome hat hrows hgrid
  obtain ⟨hshows, hother', -, -⟩ :=
    h.showsText_of_printChars hat (hfg' ▸ hfg) (hbg' ▸ hbg) hgrid htext hchars
  rw [hfg', hbg'] at hshows
  refine ⟨start, s', hclear, hchars, hshows.page hapart hother hblanks, ?_⟩
  intro b hb
  rw [hother' b hb, hother b hb]

end Page

theorem textScreen_padded : TextScreen paddedScreen smallFont cursorMaxLines cursorMaxColumns := by
  refine ⟨⟨?_, ?_, ?_, ?_, ?_, ?_, ?_, ?_⟩, ?_, ?_, ?_, ?_⟩ <;> decide

/-- The small font lies below the padded screen. -/
theorem fontApart_padded {cells : List (Nat × UInt16)} (h : ∀ cell ∈ cells, cell.2.toNat < 256) :
    FontApart paddedScreen smallFont cells := by
  intro cell hcell y hy hmem
  have hlow : 0xe0000000 ≤ ((0x10004 + cell.2.toNat * 16) % 2 ^ 64 + y) % 2 ^ 64 := hmem.1
  have hchr := h cell hcell
  have hy' : y < 16 := hy
  omega

/-- Two letters, a new line and an exclamation mark. -/
theorem cleared_screen_shows_text_padded :
    ∃ start s', clearScreen paddedScreen smallFont smallConsole = some start ∧
      printChars paddedScreen smallFont start [0x48, 0x69, 0xa, 0x21] = some s' ∧
      ShowsPage paddedScreen smallFont cursorMaxLines cursorMaxColumns smallConsole.cursor.fgColor
        smallConsole.cursor.bgColor (placed cursorMaxColumns 0 [0x48, 0x69, 0xa, 0x21])
        smallConsole.mem s'.mem ∧
      ∀ b ∉ framebufferBytes paddedScreen, s'.mem.byte b = smallConsole.mem.byte b := by
  refine cleared_screen_shows_text textScreen_padded ⟨rfl, rfl⟩ (by decide) (by decide) ?_ (by decide) ?_
  · intro _ _
    decide
  · exact fontApart_padded (by decide)

end MyOSKernel
