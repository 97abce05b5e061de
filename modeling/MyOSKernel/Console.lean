import MyOSKernel.Pixels

/-! The text console of `console.c`. Its cursor wraps at the end of a line but not at the end of the
screen: the line number grows with every new line. The text position counts cells from the top left;
the cursor holds it, the line taken modulo the sixteen bits it has. -/

namespace MyOSKernel

def cursorMaxLines : Nat := 37

def cursorMaxColumns : Nat := 100

structure ConsoleCursor where
  line : Nat
  column : Nat
  maxLines : Nat
  maxColumns : Nat
  fgColor : Nat
  bgColor : Nat

namespace ConsoleCursor

def newLine (self : ConsoleCursor) : ConsoleCursor :=
  { self with column := 0, line := (self.line + 1) % 2 ^ 16 }

def next (self : ConsoleCursor) : ConsoleCursor :=
  if self.column + 1 = self.maxColumns then self.newLine
  else { self with column := (self.column + 1) % 2 ^ 16 }

def reset (self : ConsoleCursor) : ConsoleCursor := { self with column := 0, line := 0 }

end ConsoleCursor

/-- The font, with the `charsize` of its header. -/
structure ConsoleFont where
  charsize : Nat
  glyphHeight : Nat
  glyphWidth : Nat
  glyphBuffer : Nat

/-- The console's cursor and the memory it draws on. `cells` records the lines and columns glyphs
have been drawn at, the latest first. -/
structure ConsoleState where
  cursor : ConsoleCursor
  mem : Memory
  cells : List (Nat × Nat)

/-- Forgets what has been drawn. -/
def ConsoleState.forgetDrawn (s : ConsoleState) : ConsoleState :=
  { s with mem := s.mem.clearWrites, cells := [] }

/-- The glyph of a character at the cursor; its offsets have sixteen bits. -/
def glyphAt (font : ConsoleFont) (cursor : ConsoleCursor) (chr : UInt16) : Glyph where
  bitmap := (font.glyphBuffer + chr.toNat * font.charsize) % 2 ^ 64
  yOff := cursor.line * font.glyphHeight % 2 ^ 16
  xOff := cursor.column * font.glyphWidth % 2 ^ 16
  width := font.glyphWidth
  height := font.glyphHeight
  fgColor := cursor.fgColor
  bgColor := cursor.bgColor

def printChar (fb : GraphicsFramebuffer) (font : ConsoleFont) (s : ConsoleState) (chr : UInt16) :
    Option ConsoleState :=
  if chr.toNat = '\n'.toNat then some { s with cursor := s.cursor.newLine }
  else if chr.toNat = '\t'.toNat then some { s with cursor := s.cursor.next.next.next }
  else
    (printGlyph fb (glyphAt font s.cursor chr) s.mem).map fun mem =>
      { cursor := s.cursor.next, mem := mem, cells := (s.cursor.line, s.cursor.column) :: s.cells }

/-- A sequence of calls of `Console__print_char`. -/
def printChars (fb : GraphicsFramebuffer) (font : ConsoleFont) (s : ConsoleState)
    (chars : List UInt16) : Option ConsoleState :=
  chars.foldlM (printChar fb font) s

def blankChar : UInt16 := 0x20

/-- `Console__clear_screen`: a blank for every cell, between two resets of the cursor. The number of
cells is a product of type `int`. -/
def clearScreen (fb : GraphicsFramebuffer) (font : ConsoleFont) (s : ConsoleState) :
    Option ConsoleState :=
  if s.cursor.maxLines * s.cursor.maxColumns < 2 ^ 31 then
    (printChars fb font { s with cursor := s.cursor.reset }
      (List.replicate (s.cursor.maxLines * s.cursor.maxColumns) blankChar)).map fun s =>
        { s with cursor := s.cursor.reset }
  else none

/-- Whether a character has a glyph. -/
def Drawn (chr : UInt16) : Prop := chr.toNat ≠ '\n'.toNat ∧ chr.toNat ≠ '\t'.toNat

instance (chr : UInt16) : Decidable (Drawn chr) := inferInstanceAs (Decidable (_ ∧ _))

/-- The position after a character, on lines of `columns` cells. -/
def textAdvance (columns pos : Nat) (chr : UInt16) : Nat :=
  if chr.toNat = '\n'.toNat then (pos / columns + 1) * columns
  else if chr.toNat = '\t'.toNat then pos + 3
  else pos + 1

def textPosition (columns pos : Nat) (chars : List UInt16) : Nat :=
  chars.foldl (textAdvance columns) pos

/-- The cursor is at a text position. -/
structure ConsoleCursor.At (cursor : ConsoleCursor) (lines columns pos : Nat) : Prop where
  maxLines : cursor.maxLines = lines
  maxColumns : cursor.maxColumns = columns
  line : cursor.line = pos / columns % 2 ^ 16
  column : cursor.column = pos % columns

section Position
variable {cursor : ConsoleCursor} {lines columns pos : Nat}

theorem ConsoleCursor.At.newLine (h : cursor.At lines columns pos) (hcolumns : 0 < columns) :
    cursor.newLine.At lines columns ((pos / columns + 1) * columns) := by
  have hline := h.line
  refine ⟨h.maxLines, h.maxColumns, ?_, ?_⟩
  · show (cursor.line + 1) % 2 ^ 16 = _
    rw [Nat.mul_div_cancel _ hcolumns]
    omega
  · exact (Nat.mul_mod_left _ _).symm

theorem ConsoleCursor.At.next (h : cursor.At lines columns pos) (hcolumns : 0 < columns)
    (hcolumns' : columns < 2 ^ 16) : cursor.next.At lines columns (pos + 1) := by
  have hlt := Nat.mod_lt pos hcolumns
  have hpos := Nat.div_add_mod pos columns
  unfold ConsoleCursor.next
  rw [h.column, h.maxColumns]
  by_cases hend : pos % columns + 1 = columns
  · have hnext : pos + 1 = (pos / columns + 1) * columns := by
      rw [Nat.add_mul, Nat.one_mul, Nat.mul_comm]
      omega
    rw [if_pos hend, hnext]
    exact h.newLine hcolumns
  · have hsplit : pos + 1 = columns * (pos / columns) + (pos % columns + 1) := by omega
    have hless : pos % columns + 1 < columns := by omega
    have hdiv : (pos + 1) / columns = pos / columns := by
      rw [hsplit, Nat.mul_add_div hcolumns, Nat.div_eq_of_lt hless, Nat.add_zero]
    have hmod : (pos + 1) % columns = pos % columns + 1 := by
      rw [hsplit, Nat.mul_add_mod, Nat.mod_eq_of_lt hless]
    rw [if_neg hend]
    refine ⟨h.maxLines, rfl, ?_, ?_⟩
    · rw [hdiv]
      exact h.line
    · rw [hmod]
      exact Nat.mod_eq_of_lt (by omega)

end Position

/-- A framebuffer of 32-bit pixels that has room for the cells. -/
structure ScreenFits (fb : GraphicsFramebuffer) (font : ConsoleFont) (lines columns : Nat) : Prop where
  depth : fb.bytesPerPixel = 4
  width : columns * font.glyphWidth ≤ fb.width
  height : lines * font.glyphHeight ≤ fb.height
  scanline : fb.width ≤ fb.pixelsPerScanline
  size : fb.bufferSize = fb.pixelsPerScanline * fb.height * 4
  inMemory : fb.baseAddress + fb.bufferSize ≤ 2 ^ 64
  height_lt : fb.height < 2 ^ 16
  scanline_lt : fb.pixelsPerScanline < 2 ^ 16

/-- No scanline of the glyphs on a line has an offset beyond the type `int`. -/
def RowsDefined (fb : GraphicsFramebuffer) (font : ConsoleFont) (line : Nat) : Prop :=
  0 < font.glyphHeight → 0 < font.glyphWidth →
    (line * font.glyphHeight + font.glyphHeight - 1) * fb.pixelsPerScanline * 4 < 2 ^ 31

/-- The last pixel of a cell is not the last of the framebuffer: a store there passes its end. -/
def LastPixelInside (fb : GraphicsFramebuffer) (font : ConsoleFont) (line column : Nat) : Prop :=
  0 < font.glyphHeight → 0 < font.glyphWidth →
    (line * font.glyphHeight + font.glyphHeight - 1) * fb.pixelsPerScanline +
      (column * font.glyphWidth + font.glyphWidth - 1) + 1 < fb.pixelsPerScanline * fb.height

section Screen
variable {fb : GraphicsFramebuffer} {font : ConsoleFont} {cursor : ConsoleCursor}
  {lines columns pos line x y : Nat} {chr : UInt16}

theorem ScreenFits.pixelMode (h : ScreenFits fb font lines columns) : PixelMode fb :=
  ⟨h.depth, h.scanline, h.size ▸ h.inMemory⟩

theorem ScreenFits.pixelAddress_eq (h : ScreenFits fb font lines columns)
    (hx : x < fb.pixelsPerScanline) (hy : y < fb.height) :
    y * fb.pixelsPerScanline + x < fb.pixelsPerScanline * fb.height ∧
      fb.pixelAddress x y = fb.baseAddress + (y * fb.pixelsPerScanline + x) * 4 := by
  refine ⟨pixelIndex_lt hx hy, ?_⟩
  rw [h.pixelMode.pixelAddress_eq hx hy, Nat.mul_comm 4]
  rfl

/-- The scanlines of a cell on the screen. -/
theorem ScreenFits.row_lt (h : ScreenFits fb font lines columns) (hline : line < lines)
    (hy : y < font.glyphHeight) :
    (y + line * font.glyphHeight % 2 ^ 16) % 2 ^ 16 = line * font.glyphHeight + y ∧
      line * font.glyphHeight + y < fb.height := by
  have hlines : (line + 1) * font.glyphHeight ≤ lines * font.glyphHeight :=
    Nat.mul_le_mul_right _ hline
  have hheight := h.height
  have hlt := h.height_lt
  rw [Nat.add_mul, Nat.one_mul] at hlines
  omega

/-- And its columns of pixels. -/
theorem ScreenFits.column_lt (h : ScreenFits fb font lines columns) {column : Nat}
    (hcolumn : column < columns) (hx : x < font.glyphWidth) :
    (x + column * font.glyphWidth % 2 ^ 16) % 2 ^ 16 = column * font.glyphWidth + x ∧
      column * font.glyphWidth + x < fb.pixelsPerScanline := by
  have hcolumns : (column + 1) * font.glyphWidth ≤ columns * font.glyphWidth :=
    Nat.mul_le_mul_right _ hcolumn
  have hwidth := h.width
  have hscanline := h.scanline
  have hlt := h.scanline_lt
  rw [Nat.add_mul, Nat.one_mul] at hcolumns
  omega

/-- The steps of a glyph are defined when those of its last scanline are. -/
theorem ScreenFits.rows_iff (h : ScreenFits fb font lines columns) (chr : UInt16)
    (hcell : cursor.line < lines) :
    (∀ y ∈ List.range (glyphAt font cursor chr).height,
        ∀ x ∈ List.range (glyphAt font cursor chr).width,
          fb.RowDefined ((y + (glyphAt font cursor chr).yOff) % 2 ^ 16)) ↔
      RowsDefined fb font cursor.line := by
  simp only [glyphAt, List.mem_range]
  constructor
  · intro hrows hheight hwidth
    have hlast := hrows (font.glyphHeight - 1) (by omega) 0 hwidth
    rw [h.pixelMode.rowDefined_iff, (h.row_lt hcell (by omega)).1] at hlast
    rwa [Nat.add_sub_assoc (show 1 ≤ font.glyphHeight from hheight)]
  · intro hrows y hy x hx
    have hlast := hrows (by omega) (by omega)
    rw [h.pixelMode.rowDefined_iff, (h.row_lt hcell hy).1]
    have hle : (cursor.line * font.glyphHeight + y) * fb.pixelsPerScanline ≤
        (cursor.line * font.glyphHeight + font.glyphHeight - 1) * fb.pixelsPerScanline :=
      Nat.mul_le_mul_right _ (by omega)
    omega

/-- The bytes of a glyph lie in the framebuffer when those of its last pixel do. -/
theorem ScreenFits.bytes_iff (h : ScreenFits fb font lines columns) (hline : cursor.line < lines)
    (hcolumn : cursor.column < columns) :
    (glyphAt font cursor chr).bytes fb ⊆
        Set.Ico fb.baseAddress (fb.baseAddress + fb.bufferSize) ↔
      LastPixelInside fb font cursor.line cursor.column := by
  have hsize := h.size
  constructor
  · intro hbytes hheight hwidth
    obtain ⟨hrow, hrow_lt⟩ := h.row_lt hline (show font.glyphHeight - 1 < font.glyphHeight by omega)
    obtain ⟨hcol, hcol_lt⟩ :=
      h.column_lt hcolumn (show font.glyphWidth - 1 < font.glyphWidth by omega)
    obtain ⟨-, haddr⟩ := h.pixelAddress_eq hcol_lt hrow_lt
    have hlast : fb.pixelAddress (cursor.column * font.glyphWidth + (font.glyphWidth - 1))
        (cursor.line * font.glyphHeight + (font.glyphHeight - 1)) + 7 ∈
          (glyphAt font cursor chr).bytes fb := by
      refine ⟨font.glyphHeight - 1, List.mem_range.mpr (Nat.sub_lt hheight Nat.one_pos),
        font.glyphWidth - 1, List.mem_range.mpr (Nat.sub_lt hwidth Nat.one_pos), ?_⟩
      simp only [glyphAt]
      rw [hrow, hcol]
      exact Set.mem_Ico.mpr ⟨by omega, by omega⟩
    have hinside := (hbytes hlast).2
    rw [haddr] at hinside
    rw [Nat.add_sub_assoc (show 1 ≤ font.glyphHeight from hheight),
      Nat.add_sub_assoc (show 1 ≤ font.glyphWidth from hwidth)]
    omega
  · intro hlast b hb
    obtain ⟨y, hy, x, hx, hmem⟩ := hb
    simp only [glyphAt] at hmem
    have hy' : y < font.glyphHeight := List.mem_range.mp hy
    have hx' : x < font.glyphWidth := List.mem_range.mp hx
    obtain ⟨hrow, hrow_lt⟩ := h.row_lt hline hy'
    obtain ⟨hcol, hcol_lt⟩ := h.column_lt hcolumn hx'
    obtain ⟨-, haddr⟩ := h.pixelAddress_eq hcol_lt hrow_lt
    rw [hrow, hcol, haddr] at hmem
    have hbefore := hlast (by omega) (by omega)
    have hle : (cursor.line * font.glyphHeight + y) * fb.pixelsPerScanline ≤
        (cursor.line * font.glyphHeight + font.glyphHeight - 1) * fb.pixelsPerScanline :=
      Nat.mul_le_mul_right _ (by omega)
    have hlow := hmem.1
    have hhigh := hmem.2
    exact ⟨by omega, by omega⟩

theorem RowsDefined.of_le {line' : Nat} (h : RowsDefined fb font line') (hle : line ≤ line') :
    RowsDefined fb font line := by
  intro hheight hwidth
  have hlast := h hheight hwidth
  have hlines : line * font.glyphHeight ≤ line' * font.glyphHeight := Nat.mul_le_mul_right _ hle
  have hrows : (line * font.glyphHeight + font.glyphHeight - 1) * fb.pixelsPerScanline ≤
      (line' * font.glyphHeight + font.glyphHeight - 1) * fb.pixelsPerScanline :=
    Nat.mul_le_mul_right _ (by omega)
  omega

end Screen

section Char
variable {fb : GraphicsFramebuffer} {font : ConsoleFont} {s s' : ConsoleState}
  {lines columns pos : Nat} {chr : UInt16}

variable (fb font) in
theorem printChar_of_not_drawn (hchr : ¬Drawn chr) (hat : s.cursor.At lines columns pos)
    (hcolumns : 0 < columns) (hcolumns' : columns < 2 ^ 16) :
    ∃ cursor : ConsoleCursor, printChar fb font s chr = some { s with cursor := cursor } ∧
      cursor.At lines columns (textAdvance columns pos chr) := by
  unfold printChar textAdvance
  by_cases hline : chr.toNat = '\n'.toNat
  · rw [if_pos hline, if_pos hline]
    exact ⟨_, rfl, hat.newLine hcolumns⟩
  · have htab : chr.toNat = '\t'.toNat := by
      by_contra hother
      exact hchr ⟨hline, hother⟩
    rw [if_neg hline, if_neg hline, if_pos htab, if_pos htab]
    exact ⟨_, rfl, ((hat.next hcolumns hcolumns').next hcolumns hcolumns').next hcolumns hcolumns'⟩

theorem printChar_of_drawn (hchr : Drawn chr) : printChar fb font s chr =
    (printGlyph fb (glyphAt font s.cursor chr) s.mem).map fun mem =>
      { cursor := s.cursor.next, mem := mem, cells := (s.cursor.line, s.cursor.column) :: s.cells } := by
  rw [printChar, if_neg hchr.1, if_neg hchr.2]

theorem textAdvance_of_drawn (hchr : Drawn chr) : textAdvance columns pos chr = pos + 1 := by
  rw [textAdvance, if_neg hchr.1, if_neg hchr.2]

/-- What the console has drawn in a run that goes on: nothing is taken back. -/
structure ConsoleState.Extends (s' s : ConsoleState) : Prop where
  cells : s.cells ⊆ s'.cells
  writes : s.mem.writes ⊆ s'.mem.writes

/-- The glyph at the cursor has been drawn. -/
structure ConsoleState.Shows (s' : ConsoleState) (fb : GraphicsFramebuffer) (font : ConsoleFont)
    (lines : Nat) (cursor : ConsoleCursor) (chr : UInt16) : Prop where
  cell : (cursor.line, cursor.column) ∈ s'.cells
  rows : cursor.line < lines → RowsDefined fb font cursor.line
  bytes : ∀ b ∈ (glyphAt font cursor chr).bytes fb, b ∈ s'.mem.writes

theorem printChar_eq_some (h : ScreenFits fb font lines columns)
    (hrun : printChar fb font s chr = some s') (hat : s.cursor.At lines columns pos)
    (hcolumns : 0 < columns) (hcolumns' : columns < 2 ^ 16) :
    s'.cursor.At lines columns (textAdvance columns pos chr) ∧ s'.Extends s ∧
      (Drawn chr → s'.Shows fb font lines s.cursor chr) := by
  by_cases hchr : Drawn chr
  · rw [printChar_of_drawn hchr] at hrun
    obtain ⟨mem, hglyph, rfl⟩ := Option.map_eq_some_iff.mp hrun
    have hrows : ∀ y ∈ List.range (glyphAt font s.cursor chr).height,
        ∀ x ∈ List.range (glyphAt font s.cursor chr).width,
          fb.RowDefined ((y + (glyphAt font s.cursor chr).yOff) % 2 ^ 16) := by
      by_contra hstuck
      rw [stores_printGlyph.stuck hstuck] at hglyph
      cases hglyph
    obtain ⟨mem', hglyph', hwrites⟩ := stores_printGlyph.run hrows s.mem
    rw [hglyph] at hglyph'
    cases hglyph'
    rw [textAdvance_of_drawn hchr]
    refine ⟨hat.next hcolumns hcolumns', ⟨List.subset_cons_self _ _, ?_⟩, fun _ => ?_⟩
    · exact fun b hb => (hwrites b).mpr (Or.inr hb)
    · exact {
        cell := List.mem_cons_self
        rows := fun hline => (h.rows_iff chr hline).mp hrows
        bytes := fun b hb => (hwrites b).mpr (Or.inl hb) }
  · obtain ⟨cursor, hrun', hcursor⟩ := printChar_of_not_drawn fb font hchr hat hcolumns hcolumns'
    rw [hrun] at hrun'
    cases hrun'
    exact ⟨hcursor, ⟨List.Subset.refl _, List.Subset.refl _⟩, fun hdrawn => absurd hdrawn hchr⟩

/-- All that has been drawn is on the screen. -/
structure OnScreen (fb : GraphicsFramebuffer) (lines columns : Nat) (s : ConsoleState) : Prop where
  cells : ∀ cell ∈ s.cells, cell.1 < lines ∧ cell.2 < columns
  bytes : ∀ b ∈ s.mem.writes, b ∈ Set.Ico fb.baseAddress (fb.baseAddress + fb.bufferSize)

/-- The cell of a text position is on the screen and ends before the framebuffer's last pixel. -/
def InsideScreen (fb : GraphicsFramebuffer) (font : ConsoleFont) (lines columns pos : Nat) : Prop :=
  pos / columns % 2 ^ 16 < lines ∧
    LastPixelInside fb font (pos / columns % 2 ^ 16) (pos % columns)

theorem printChar_isSome (h : ScreenFits fb font lines columns)
    (hrows : ∀ line < lines, RowsDefined fb font line) (hat : s.cursor.At lines columns pos)
    (hcolumns : 0 < columns) (hcolumns' : columns < 2 ^ 16)
    (hline : Drawn chr → pos / columns % 2 ^ 16 < lines) :
    ∃ s', printChar fb font s chr = some s' := by
  by_cases hchr : Drawn chr
  · have hcell : s.cursor.line < lines := by
      rw [hat.line]
      exact hline hchr
    obtain ⟨mem, hglyph, -⟩ :=
      stores_printGlyph.run ((h.rows_iff chr hcell).mpr (hrows _ hcell)) s.mem
    exact ⟨_, by rw [printChar_of_drawn hchr, hglyph, Option.map_some]⟩
  · obtain ⟨cursor, hrun, -⟩ := printChar_of_not_drawn fb font hchr hat hcolumns hcolumns'
    exact ⟨_, hrun⟩

theorem OnScreen.printChar (hs : OnScreen fb lines columns s) (h : ScreenFits fb font lines columns)
    (hrun : printChar fb font s chr = some s') (hat : s.cursor.At lines columns pos)
    (hcolumns : 0 < columns) (hcolumns' : columns < 2 ^ 16)
    (hinside : Drawn chr → InsideScreen fb font lines columns pos) :
    OnScreen fb lines columns s' := by
  by_cases hchr : Drawn chr
  · obtain ⟨hline, hlast⟩ := hinside hchr
    rw [← hat.line] at hline hlast
    rw [← hat.column] at hlast
    have hcolumn : s.cursor.column < columns := by
      rw [hat.column]
      exact Nat.mod_lt _ hcolumns
    have hrows := ((printChar_eq_some h hrun hat hcolumns hcolumns').2.2 hchr).rows hline
    obtain ⟨mem, hglyph, hwrites⟩ :=
      stores_printGlyph.run ((h.rows_iff chr hline).mpr hrows) s.mem
    rw [printChar_of_drawn hchr, hglyph, Option.map_some] at hrun
    cases hrun
    constructor
    · intro cell hcell
      obtain rfl | hold := List.mem_cons.mp hcell
      · exact ⟨hline, hcolumn⟩
      · exact hs.cells cell hold
    · intro b hb
      obtain hglyph | hold := (hwrites b).mp hb
      · exact (h.bytes_iff hline hcolumn).mpr hlast hglyph
      · exact hs.bytes b hold
  · obtain ⟨cursor, hrun', -⟩ := printChar_of_not_drawn fb font hchr hat hcolumns hcolumns'
    rw [hrun] at hrun'
    cases hrun'
    exact ⟨hs.cells, hs.bytes⟩

end Char

section Run
variable {fb : GraphicsFramebuffer} {font : ConsoleFont} {s s' : ConsoleState}
  {lines columns pos : Nat} {chr : UInt16} {chars : List UInt16}

theorem printChars_cons : printChars fb font s (chr :: chars) =
    (printChar fb font s chr).bind fun s => printChars fb font s chars := rfl

theorem textPosition_cons : textPosition columns pos (chr :: chars) =
    textPosition columns (textAdvance columns pos chr) chars := rfl

theorem ConsoleState.Extends.trans {s'' : ConsoleState} (h' : s''.Extends s') (h : s'.Extends s) :
    s''.Extends s :=
  ⟨List.Subset.trans h.cells h'.cells, List.Subset.trans h.writes h'.writes⟩

theorem ConsoleState.Shows.extends {s'' : ConsoleState} {cursor : ConsoleCursor}
    (h : s'.Shows fb font lines cursor chr) (h' : s''.Extends s') :
    s''.Shows fb font lines cursor chr :=
  ⟨h'.cells h.cell, h.rows, fun b hb => h'.writes (h.bytes b hb)⟩

/-- A run keeps what it has drawn, and has drawn each character at its text position. -/
theorem printChars_eq_some (h : ScreenFits fb font lines columns)
    (hrun : printChars fb font s chars = some s') (hat : s.cursor.At lines columns pos)
    (hcolumns : 0 < columns) (hcolumns' : columns < 2 ^ 16) :
    s'.cursor.At lines columns (textPosition columns pos chars) ∧ s'.Extends s ∧
      ∀ before c after, chars = before ++ c :: after → Drawn c → ∃ cursor : ConsoleCursor,
        cursor.At lines columns (textPosition columns pos before) ∧
          s'.Shows fb font lines cursor c := by
  induction chars generalizing s pos with
  | nil =>
      cases hrun
      refine ⟨hat, ⟨List.Subset.refl _, List.Subset.refl _⟩, ?_⟩
      intro before c after hsplit
      simp at hsplit
  | cons chr chars ih =>
      rw [printChars_cons, Option.bind_eq_some_iff] at hrun
      obtain ⟨next, hchar, hrest⟩ := hrun
      obtain ⟨hat', hextends, hshows⟩ := printChar_eq_some h hchar hat hcolumns hcolumns'
      obtain ⟨hend, hextends', hlater⟩ := ih hrest hat'
      refine ⟨hend, hextends'.trans hextends, ?_⟩
      intro before c after hsplit hdrawn
      cases before with
      | nil =>
          obtain ⟨rfl, rfl⟩ : chr = c ∧ chars = after := by simpa using hsplit
          exact ⟨s.cursor, hat, (hshows hdrawn).extends hextends'⟩
      | cons first before =>
          obtain ⟨rfl, hsplit'⟩ : chr = first ∧ chars = before ++ c :: after := by
            simpa using hsplit
          exact hlater before c after hsplit' hdrawn

theorem printChars_isSome (h : ScreenFits fb font lines columns)
    (hrows : ∀ line < lines, RowsDefined fb font line) (hat : s.cursor.At lines columns pos)
    (hcolumns : 0 < columns) (hcolumns' : columns < 2 ^ 16)
    (hlines : ∀ before c after, chars = before ++ c :: after → Drawn c →
      textPosition columns pos before / columns % 2 ^ 16 < lines) :
    ∃ s', printChars fb font s chars = some s' := by
  induction chars generalizing s pos with
  | nil => exact ⟨s, rfl⟩
  | cons chr chars ih =>
      obtain ⟨next, hchar⟩ := printChar_isSome (s := s) h hrows hat hcolumns hcolumns'
        (hlines [] chr chars rfl)
      have hat' := (printChar_eq_some h hchar hat hcolumns hcolumns').1
      rw [printChars_cons, hchar, Option.bind_some]
      apply ih hat'
      intro before c after hsplit
      exact hlines (chr :: before) c after (by rw [hsplit, List.cons_append])

theorem OnScreen.printChars (hs : OnScreen fb lines columns s)
    (h : ScreenFits fb font lines columns) (hrun : printChars fb font s chars = some s')
    (hat : s.cursor.At lines columns pos) (hcolumns : 0 < columns) (hcolumns' : columns < 2 ^ 16)
    (hinside : ∀ before c after, chars = before ++ c :: after → Drawn c →
      InsideScreen fb font lines columns (textPosition columns pos before)) :
    OnScreen fb lines columns s' := by
  induction chars generalizing s pos with
  | nil =>
      cases hrun
      exact hs
  | cons chr chars ih =>
      rw [printChars_cons, Option.bind_eq_some_iff] at hrun
      obtain ⟨next, hchar, hrest⟩ := hrun
      have hat' := (printChar_eq_some h hchar hat hcolumns hcolumns').1
      have hnext := hs.printChar h hchar hat hcolumns hcolumns' (hinside [] chr chars rfl)
      apply ih hnext hrest hat'
      intro before c after hsplit
      exact hinside (chr :: before) c after (by rw [hsplit, List.cons_append])

/-- What is drawn on the screen was at a text position inside it. -/
theorem insideScreen_of_onScreen (h : ScreenFits fb font lines columns)
    (hrun : printChars fb font s chars = some s') (hscreen : OnScreen fb lines columns s')
    (hat : s.cursor.At lines columns pos) (hcolumns : 0 < columns) (hcolumns' : columns < 2 ^ 16) :
    ∀ before c after, chars = before ++ c :: after → Drawn c →
      InsideScreen fb font lines columns (textPosition columns pos before) := by
  intro before c after hsplit hdrawn
  obtain ⟨cursor, hat', hshows⟩ :=
    (printChars_eq_some h hrun hat hcolumns hcolumns').2.2 before c after hsplit hdrawn
  obtain ⟨hline, hcolumn⟩ := hscreen.cells _ hshows.cell
  have hlast := (h.bytes_iff hline hcolumn).mp fun b hb => hscreen.bytes b (hshows.bytes b hb)
  rw [hat'.line] at hline hlast
  rw [hat'.column] at hlast
  exact ⟨hline, hlast⟩

theorem drawn_blankChar : Drawn blankChar := by decide

theorem textPosition_replicate (n : Nat) :
    textPosition columns pos (List.replicate n blankChar) = pos + n := by
  induction n generalizing pos with
  | zero => rfl
  | succ n ih =>
      rw [List.replicate_succ, textPosition_cons, ih, textAdvance_of_drawn drawn_blankChar]
      omega

theorem at_reset {cursor : ConsoleCursor} (hlines : cursor.maxLines = lines)
    (hcolumns : cursor.maxColumns = columns) : cursor.reset.At lines columns 0 := by
  refine ⟨hlines, hcolumns, ?_, ?_⟩
  · rw [Nat.zero_div]
    rfl
  · exact (Nat.zero_mod _).symm

theorem clearScreen_eq_some_iff {start : ConsoleState} : clearScreen fb font s = some start ↔
    s.cursor.maxLines * s.cursor.maxColumns < 2 ^ 31 ∧
      ∃ t, printChars fb font { s with cursor := s.cursor.reset }
        (List.replicate (s.cursor.maxLines * s.cursor.maxColumns) blankChar) = some t ∧
      { t with cursor := t.cursor.reset } = start := by
  unfold clearScreen
  split_ifs with hcells
  · rw [Option.map_eq_some_iff, and_iff_right hcells]
  · exact ⟨fun h => absurd h (by simp), fun h => absurd h.1 hcells⟩

/-- Clearing draws every cell, so it is defined when the last scanline has an offset. -/
theorem clearScreen_isSome_iff (h : ScreenFits fb font lines columns)
    (hlines : s.cursor.maxLines = lines) (hcolumns : s.cursor.maxColumns = columns)
    (hlines' : 0 < lines ∧ lines < 2 ^ 16) (hcolumns' : 0 < columns ∧ columns < 2 ^ 16)
    (hint : lines * columns < 2 ^ 31) :
    (∃ start, clearScreen fb font s = some start) ↔ RowsDefined fb font (lines - 1) := by
  have hat : ({ s with cursor := s.cursor.reset } : ConsoleState).cursor.At lines columns 0 :=
    at_reset hlines hcolumns
  have hcells : 0 < lines * columns := Nat.mul_pos hlines'.1 hcolumns'.1
  simp only [clearScreen_eq_some_iff, hlines, hcolumns]
  constructor
  · intro hcleared
    obtain ⟨start, -, s', hrun, -⟩ := hcleared
    have hsplit : List.replicate (lines * columns) blankChar =
        List.replicate (lines * columns - 1) blankChar ++ blankChar :: [] := by
      rw [← List.replicate_succ', Nat.sub_add_cancel hcells]
    obtain ⟨cursor, hcursor, hshows⟩ := (printChars_eq_some h hrun hat hcolumns'.1
      hcolumns'.2).2.2 _ _ _ hsplit drawn_blankChar
    have hline : cursor.line = lines - 1 := by
      have hlast : lines * columns - 1 = columns * (lines - 1) + (columns - 1) := by
        obtain ⟨n, rfl⟩ : ∃ n, lines = n + 1 := ⟨lines - 1, by omega⟩
        rw [Nat.add_mul, Nat.one_mul, Nat.add_sub_cancel, Nat.mul_comm]
        omega
      rw [hcursor.line, textPosition_replicate, Nat.zero_add, hlast, Nat.mul_add_div hcolumns'.1,
        Nat.div_eq_of_lt (by omega), Nat.add_zero, Nat.mod_eq_of_lt (by omega)]
    rw [← hline]
    exact hshows.rows (by omega)
  · intro hrows
    have hall : ∀ line < lines, RowsDefined fb font line :=
      fun line hline => hrows.of_le (by omega)
    have hblanks : ∀ before c after,
        List.replicate (lines * columns) blankChar = before ++ c :: after → Drawn c →
          textPosition columns 0 before / columns % 2 ^ 16 < lines := by
      intro before c after hsplit _
      obtain ⟨hlen, hbefore, -⟩ := List.append_eq_replicate_iff.mp hsplit.symm
      rw [List.length_cons] at hlen
      rw [hbefore, textPosition_replicate, Nat.zero_add]
      exact (Nat.mod_le _ _).trans_lt (Nat.div_lt_of_lt_mul (by rw [Nat.mul_comm]; omega))
    obtain ⟨s', hrun⟩ := printChars_isSome h hall hat hcolumns'.1 hcolumns'.2 hblanks
    exact ⟨_, hint, s', hrun, rfl⟩

theorem at_of_clearScreen {start : ConsoleState} (h : ScreenFits fb font lines columns)
    (hrun : clearScreen fb font s = some start) (hlines : s.cursor.maxLines = lines)
    (hcolumns : s.cursor.maxColumns = columns) (hcolumns' : 0 < columns ∧ columns < 2 ^ 16) :
    start.cursor.At lines columns 0 := by
  obtain ⟨-, s', hchars, rfl⟩ := clearScreen_eq_some_iff.mp hrun
  have hat : ({ s with cursor := s.cursor.reset } : ConsoleState).cursor.At lines columns 0 :=
    at_reset hlines hcolumns
  have hend := (printChars_eq_some h hchars hat hcolumns'.1 hcolumns'.2).1
  exact at_reset hend.maxLines hend.maxColumns

/-- The output stays on the screen exactly when the scanlines' offsets fit the type `int` and each
character with a glyph is at a text position inside the screen. -/
theorem console_on_screen_iff (h : ScreenFits fb font cursorMaxLines cursorMaxColumns)
    (hlines : s.cursor.maxLines = cursorMaxLines) (hcolumns : s.cursor.maxColumns = cursorMaxColumns)
    (chars : List UInt16) :
    (∃ start s', clearScreen fb font s = some start ∧
        printChars fb font start.forgetDrawn chars = some s' ∧
        OnScreen fb cursorMaxLines cursorMaxColumns s') ↔
      RowsDefined fb font (cursorMaxLines - 1) ∧
        ∀ before c after, chars = before ++ c :: after → Drawn c →
          InsideScreen fb font cursorMaxLines cursorMaxColumns
            (textPosition cursorMaxColumns 0 before) := by
  have hlines' : 0 < cursorMaxLines ∧ cursorMaxLines < 2 ^ 16 := by decide
  have hcolumns' : 0 < cursorMaxColumns ∧ cursorMaxColumns < 2 ^ 16 := by decide
  rw [← clearScreen_isSome_iff h hlines hcolumns hlines' hcolumns' (by decide)]
  constructor
  · intro hrun
    obtain ⟨start, s', hclear, hchars, hscreen⟩ := hrun
    have hat := at_of_clearScreen h hclear hlines hcolumns hcolumns'
    exact ⟨⟨start, hclear⟩,
      insideScreen_of_onScreen h hchars hscreen hat hcolumns'.1 hcolumns'.2⟩
  · intro hcond
    obtain ⟨⟨start, hclear⟩, hinside⟩ := hcond
    have hat := at_of_clearScreen h hclear hlines hcolumns hcolumns'
    have hrows := (clearScreen_isSome_iff h hlines hcolumns hlines' hcolumns' (by decide)).mp
      ⟨start, hclear⟩
    have hall : ∀ line < cursorMaxLines, RowsDefined fb font line :=
      fun line hline => hrows.of_le (Nat.le_sub_one_of_lt hline)
    obtain ⟨s', hchars⟩ := printChars_isSome (s := start.forgetDrawn) h hall hat hcolumns'.1
      hcolumns'.2 fun before c after hsplit hdrawn => (hinside before c after hsplit hdrawn).1
    have hempty : OnScreen fb cursorMaxLines cursorMaxColumns start.forgetDrawn := by
      constructor
      · intro cell hcell
        exact absurd hcell List.not_mem_nil
      · intro b hb
        exact absurd hb List.not_mem_nil
    exact ⟨start, s', hclear, hchars,
      hempty.printChars h hchars hat hcolumns'.1 hcolumns'.2 hinside⟩

end Run

/-- A font of 8 by 16. -/
def smallFont : ConsoleFont where
  charsize := 16
  glyphHeight := 16
  glyphWidth := 8
  glyphBuffer := 0x10004

def smallConsole : ConsoleState where
  cursor := ⟨0, 0, cursorMaxLines, cursorMaxColumns, 0xffffff, 0⟩
  mem := ⟨fun _ => 0, []⟩
  cells := []

theorem screenFits_small : ScreenFits smallScreen smallFont cursorMaxLines cursorMaxColumns := by
  constructor <;> decide

theorem console_on_screen_iff_small :
    (∃ start s', clearScreen smallScreen smallFont smallConsole = some start ∧
        printChars smallScreen smallFont start.forgetDrawn [0x41, 0xa, 0x42] = some s' ∧
        OnScreen smallScreen cursorMaxLines cursorMaxColumns s') ↔
      RowsDefined smallScreen smallFont (cursorMaxLines - 1) ∧
        ∀ before c after, [0x41, 0xa, 0x42] = before ++ c :: after → Drawn c →
          InsideScreen smallScreen smallFont cursorMaxLines cursorMaxColumns
            (textPosition cursorMaxColumns 0 before) :=
  console_on_screen_iff screenFits_small rfl rfl [0x41, 0xa, 0x42]

/-- After 37 new lines the next character is drawn on the line below the last. -/
theorem console_leaves_screen :
    ScreenFits smallScreen smallFont cursorMaxLines cursorMaxColumns ∧
      ¬∃ start s', clearScreen smallScreen smallFont smallConsole = some start ∧
        printChars smallScreen smallFont start.forgetDrawn (List.replicate 37 0xa ++ [0x41]) =
          some s' ∧
        OnScreen smallScreen cursorMaxLines cursorMaxColumns s' := by
  refine ⟨screenFits_small, fun hrun => ?_⟩
  obtain ⟨start, s', hclear, hchars, hscreen⟩ := hrun
  have hat := at_of_clearScreen screenFits_small hclear rfl rfl (by decide)
  have hinside := insideScreen_of_onScreen screenFits_small hchars hscreen hat (by decide)
    (by decide) (List.replicate 37 0xa) 0x41 [] rfl (by decide)
  exact absurd hinside.1 (by decide)

end MyOSKernel
