import MyOSKernel.ConsoleCursor

/-! Printing and clearing on the grid of the console. A character with a glyph takes the cell at the
cursor and moves it to the next one, so a run fills the cells in the order of their linear positions;
clearing is the run of as many blanks as the grid has cells. -/

namespace MyOSKernel

/-- The position of the cursor, line by line. -/
def ConsoleCursor.linear (cursor : ConsoleCursor) : Nat :=
  cursor.line * cursor.maxColumns + cursor.column

/-- The cells of a grid in the order of their positions. -/
def gridCells (columns pos count : Nat) : List (Nat × Nat) :=
  (List.range count).map fun i => ((pos + i) / columns, (pos + i) % columns)

section Position
variable {cursor : ConsoleCursor} {lines columns pos line column count : Nat}

theorem ConsoleCursor.Inside.at_linear (h : cursor.Inside lines columns)
    (hline : cursor.line < 2 ^ 16) : cursor.At lines columns cursor.linear := by
  have hmax := h.maxColumns
  have hcolumn := h.column
  refine ⟨h.maxLines, hmax, ?_, ?_⟩
  · rw [linear, hmax, linear_div hcolumn, Nat.mod_eq_of_lt hline]
  · rw [linear, hmax, linear_mod hcolumn]

/-- The lines of the positions of a grid, and the position after the last, have sixteen bits. -/
theorem div_columns_lt (hlines : lines < 2 ^ 16) (hpos : pos ≤ lines * columns) :
    pos / columns < 2 ^ 16 := by
  have hle : pos / columns ≤ lines := Nat.div_le_of_le_mul (by rwa [Nat.mul_comm] at hpos)
  omega

theorem ConsoleCursor.At.linear_eq (h : cursor.At lines columns pos) (hlines : lines < 2 ^ 16)
    (hpos : pos ≤ lines * columns) (hcolumns : 0 < columns) :
    cursor.linear = pos ∧ cursor.column < columns := by
  constructor
  · rw [linear, h.maxColumns, h.line, h.column,
      Nat.mod_eq_of_lt (div_columns_lt hlines hpos), Nat.mul_comm, Nat.div_add_mod]
  · rw [h.column]
    exact Nat.mod_lt _ hcolumns

theorem gridCells_succ : gridCells columns pos (count + 1) =
    (pos / columns, pos % columns) :: gridCells columns (pos + 1) count := by
  rw [gridCells, List.range_succ_eq_map, List.map_cons, List.map_map]
  congr 1
  apply List.map_congr_left
  intro i _
  show ((pos + (i + 1)) / columns, (pos + (i + 1)) % columns) =
    ((pos + 1 + i) / columns, (pos + 1 + i) % columns)
  rw [show pos + (i + 1) = pos + 1 + i by omega]

/-- Every cell of the grid is there once, and no other. -/
theorem count_gridCells (line column : Nat) (hcolumns : 0 < columns) :
    (gridCells columns 0 (lines * columns)).count (line, column) =
      if line < lines ∧ column < columns then 1 else 0 := by
  have hnodup : (gridCells columns 0 (lines * columns)).Nodup := by
    apply List.Nodup.map _ List.nodup_range
    intro i j hij
    obtain ⟨hdiv, hmod⟩ := Prod.mk.inj hij
    simp only [Nat.zero_add] at hdiv hmod
    rw [← Nat.div_add_mod i columns, ← Nat.div_add_mod j columns, hdiv, hmod]
  have hmem : (line, column) ∈ gridCells columns 0 (lines * columns) ↔
      line < lines ∧ column < columns := by
    rw [gridCells, List.mem_map]
    constructor
    · intro h
      obtain ⟨i, hi, heq⟩ := h
      obtain ⟨rfl, rfl⟩ := Prod.mk.inj heq
      rw [List.mem_range] at hi
      rw [Nat.zero_add]
      exact ⟨Nat.div_lt_of_lt_mul (by rwa [Nat.mul_comm]), Nat.mod_lt _ hcolumns⟩
    · intro h
      have hrow : (line + 1) * columns ≤ lines * columns := Nat.mul_le_mul_right _ h.1
      rw [Nat.add_mul, Nat.one_mul] at hrow
      refine ⟨line * columns + column, List.mem_range.mpr (by omega), ?_⟩
      rw [Nat.zero_add, linear_div h.2, linear_mod h.2]
  by_cases hcell : line < lines ∧ column < columns
  · rw [if_pos hcell]
    exact List.count_eq_one_of_mem hnodup (hmem.mpr hcell)
  · rw [if_neg hcell]
    exact List.count_eq_zero_of_not_mem fun hc => hcell (hmem.mp hc)

end Position

/-- The scanlines of the glyphs on a line have offsets within the type `int`. -/
def LineDefined (fb : GraphicsFramebuffer) (font : ConsoleFont) (line : Nat) : Prop :=
  ∀ y < font.glyphHeight, 0 < font.glyphWidth →
    fb.RowDefined ((y + line * font.glyphHeight % 2 ^ 16) % 2 ^ 16)

/-- After the characters `before` the run prints `c` by drawing its glyph in the cell at `pos`. -/
def DrawsAt (fb : GraphicsFramebuffer) (font : ConsoleFont) (s : ConsoleState)
    (before : List UInt16) (c : UInt16) (columns pos : Nat) : Prop :=
  ∃ t mem, printChars fb font s before = some t ∧
    t.cursor.line = pos / columns ∧ t.cursor.column = pos % columns ∧
    printGlyph fb (glyphAt font t.cursor c) t.mem = some mem ∧
    printChar fb font t c = some
      { cursor := t.cursor.next, mem := mem, cells := (pos / columns, pos % columns) :: t.cells }

section Print
variable {fb : GraphicsFramebuffer} {font : ConsoleFont} {s s' : ConsoleState} {chr : UInt16}
  {chars : List UInt16} {lines columns pos : Nat}

theorem printGlyph_isSome_iff : (∃ mem, printGlyph fb (glyphAt font s.cursor chr) s.mem = some mem) ↔
    LineDefined fb font s.cursor.line := by
  have hrows : (∀ y ∈ List.range (glyphAt font s.cursor chr).height,
      ∀ x ∈ List.range (glyphAt font s.cursor chr).width,
        fb.RowDefined ((y + (glyphAt font s.cursor chr).yOff) % 2 ^ 16)) ↔
      LineDefined fb font s.cursor.line := by
    simp only [glyphAt, List.mem_range, LineDefined]
    constructor
    · exact fun h y hy hwidth => h y hy 0 hwidth
    · exact fun h y hy x hx => h y hy (by omega)
  rw [← hrows]
  constructor
  · intro h
    obtain ⟨mem, hmem⟩ := h
    by_contra hstuck
    rw [stores_printGlyph.stuck hstuck] at hmem
    cases hmem
  · intro h
    obtain ⟨mem, hmem, -⟩ := stores_printGlyph.run h s.mem
    exact ⟨mem, hmem⟩

/-- A character with a glyph takes the cell at the cursor. -/
theorem drawsAt_of_printChar (hrun : printChar fb font s chr = some s') (hchr : Drawn chr)
    (hat : s.cursor.At lines columns pos) (hline : pos / columns < 2 ^ 16) :
    DrawsAt fb font s [] chr columns pos ∧
      s'.cells = (pos / columns, pos % columns) :: s.cells ∧ s'.cursor = s.cursor.next := by
  have hcell : s.cursor.line = pos / columns := by rw [hat.line, Nat.mod_eq_of_lt hline]
  rw [printChar_of_drawn hchr, hcell, hat.column] at hrun
  obtain ⟨mem, hglyph, rfl⟩ := Option.map_eq_some_iff.mp hrun
  refine ⟨⟨s, mem, rfl, hcell, hat.column, hglyph, ?_⟩, rfl, rfl⟩
  rw [printChar_of_drawn hchr, hglyph, hcell, hat.column, Option.map_some]

theorem DrawsAt.cons {first c : UInt16} {before : List UInt16}
    (hfirst : printChar fb font s first = some s') (h : DrawsAt fb font s' before c columns pos) :
    DrawsAt fb font s (first :: before) c columns pos := by
  obtain ⟨t, mem, hbefore, hrest⟩ := h
  refine ⟨t, mem, ?_, hrest⟩
  rw [printChars_cons, hfirst, Option.bind_some, hbefore]

/-- A run fills the cells from the cursor on, one for each character. -/
theorem printChars_linear (hrun : printChars fb font s chars = some s')
    (hat : s.cursor.At lines columns pos) (hcolumns : 0 < columns) (hcolumns' : columns < 2 ^ 16)
    (hlines : lines < 2 ^ 16) (hdrawn : ∀ c ∈ chars, Drawn c)
    (hfits : pos + chars.length ≤ lines * columns) :
    s'.cells = (gridCells columns pos chars.length).reverse ++ s.cells ∧
      s'.cursor.At lines columns (pos + chars.length) ∧
      ∀ before c after, chars = before ++ c :: after →
        DrawsAt fb font s before c columns (pos + before.length) := by
  induction chars generalizing s pos with
  | nil =>
      cases hrun
      refine ⟨rfl, hat, ?_⟩
      intro before c after hsplit
      simp at hsplit
  | cons chr chars ih =>
      rw [List.length_cons] at hfits ⊢
      rw [printChars_cons, Option.bind_eq_some_iff] at hrun
      obtain ⟨next, hchar, hrest⟩ := hrun
      have hline : pos / columns < 2 ^ 16 := div_columns_lt hlines (by omega)
      obtain ⟨hdraws, hcells, hcursor⟩ :=
        drawsAt_of_printChar hchar (hdrawn chr List.mem_cons_self) hat hline
      have hat' : next.cursor.At lines columns (pos + 1) := hcursor ▸ hat.next hcolumns hcolumns'
      obtain ⟨hcells', hend, hlater⟩ :=
        ih hrest hat' (fun c hc => hdrawn c (List.mem_cons_of_mem _ hc)) (by omega)
      refine ⟨?_, ?_, ?_⟩
      · rw [hcells', hcells, gridCells_succ, List.reverse_cons, List.append_assoc,
          List.singleton_append]
      · rwa [show pos + (chars.length + 1) = pos + 1 + chars.length by omega]
      · intro before c after hsplit
        cases before with
        | nil =>
            obtain ⟨rfl, rfl⟩ : chr = c ∧ chars = after := by simpa using hsplit
            exact hdraws
        | cons first before =>
            obtain ⟨rfl, hsplit'⟩ : chr = first ∧ chars = before ++ c :: after := by
              simpa using hsplit
            rw [List.length_cons, show pos + (before.length + 1) = pos + 1 + before.length by omega]
            exact (hlater before c after hsplit').cons hchar

/-- The run is defined when the lines it draws on are. -/
theorem printChars_isSome_iff (hat : s.cursor.At lines columns pos) (hcolumns : 0 < columns)
    (hcolumns' : columns < 2 ^ 16) (hlines : lines < 2 ^ 16) (hdrawn : ∀ c ∈ chars, Drawn c)
    (hfits : pos + chars.length ≤ lines * columns) :
    (∃ s', printChars fb font s chars = some s') ↔
      ∀ i < chars.length, LineDefined fb font ((pos + i) / columns) := by
  induction chars generalizing s pos with
  | nil =>
      refine ⟨fun _ i hi => absurd hi (Nat.not_lt_zero i), fun _ => ⟨s, rfl⟩⟩
  | cons chr chars ih =>
      rw [List.length_cons] at hfits ⊢
      have hline : pos / columns < 2 ^ 16 := div_columns_lt hlines (by omega)
      have hchr := hdrawn chr List.mem_cons_self
      have hrest : ∀ c ∈ chars, Drawn c := fun c hc => hdrawn c (List.mem_cons_of_mem _ hc)
      have hcell : s.cursor.line = pos / columns := by rw [hat.line, Nat.mod_eq_of_lt hline]
      have hglyph : (∃ mem, printGlyph fb (glyphAt font s.cursor chr) s.mem = some mem) ↔ _ :=
        printGlyph_isSome_iff
      rw [hcell] at hglyph
      constructor
      · intro h i hi
        obtain ⟨s', hrun⟩ := h
        rw [printChars_cons, Option.bind_eq_some_iff] at hrun
        obtain ⟨next, hchar, hlater⟩ := hrun
        obtain ⟨⟨t, mem, ht, -, -, hmem, -⟩, -, hcursor⟩ :=
          drawsAt_of_printChar hchar hchr hat hline
        cases ht
        have hat' : next.cursor.At lines columns (pos + 1) := hcursor ▸ hat.next hcolumns hcolumns'
        cases i with
        | zero => exact hglyph.mp ⟨mem, hmem⟩
        | succ i =>
            rw [show pos + (i + 1) = pos + 1 + i by omega]
            exact (ih hat' hrest (by omega)).mp ⟨s', hlater⟩ i (by omega)
      · intro h
        obtain ⟨mem, hmem⟩ := hglyph.mpr (h 0 (Nat.succ_pos _))
        rw [printChars_cons, printChar_of_drawn hchr, hmem, Option.map_some, Option.bind_some]
        apply (ih (hat.next hcolumns hcolumns') hrest (by omega)).mpr
        intro i hi
        rw [show pos + 1 + i = pos + (i + 1) by omega]
        exact h (i + 1) (by omega)

end Print

section Grid

/-- What printing `chars` does: each takes the next cell, and the cursor ends after them. -/
structure FillsCells (fb : GraphicsFramebuffer) (font : ConsoleFont) (s : ConsoleState)
    (chars : List UInt16) : Prop where
  defined : (∃ s', printChars fb font s chars = some s') ↔
    ∀ i < chars.length, LineDefined fb font ((s.cursor.linear + i) / s.cursor.maxColumns)
  draws : ∀ s', printChars fb font s chars = some s' →
    ∀ before c after, chars = before ++ c :: after →
      DrawsAt fb font s before c s.cursor.maxColumns (s.cursor.linear + before.length)
  cursor : ∀ s', printChars fb font s chars = some s' →
    s'.cursor.linear = s.cursor.linear + chars.length ∧ s'.cursor.column < s.cursor.maxColumns

/-- What clearing does: a blank in each cell of the grid, and the cursor back at its start. -/
structure ClearsGrid (fb : GraphicsFramebuffer) (font : ConsoleFont) (s : ConsoleState) : Prop where
  defined : (∃ start, clearScreen fb font s = some start) ↔
    s.cursor.maxLines * s.cursor.maxColumns < 2 ^ 31 ∧
      ∀ line < s.cursor.maxLines, LineDefined fb font line
  draws : ∀ start, clearScreen fb font s = some start → ∀ i < s.cursor.maxLines * s.cursor.maxColumns,
    DrawsAt fb font { s with cursor := s.cursor.reset } (List.replicate i blankChar) blankChar
      s.cursor.maxColumns i
  once : ∀ start, clearScreen fb font s = some start → ∃ cells, start.cells = cells ++ s.cells ∧
    ∀ line column, cells.count (line, column) =
      if line < s.cursor.maxLines ∧ column < s.cursor.maxColumns then 1 else 0
  cursor : ∀ start, clearScreen fb font s = some start →
    start.cursor.line = 0 ∧ start.cursor.column = 0

theorem clearsGrid (fb : GraphicsFramebuffer) (font : ConsoleFont) (s : ConsoleState)
    (hlines : s.cursor.maxLines < 2 ^ 16) (hcolumns : 0 < s.cursor.maxColumns)
    (hcolumns' : s.cursor.maxColumns < 2 ^ 16) : ClearsGrid fb font s := by
  have hat : s.cursor.reset.At s.cursor.maxLines s.cursor.maxColumns 0 := at_reset rfl rfl
  have hdrawn : ∀ c ∈ List.replicate (s.cursor.maxLines * s.cursor.maxColumns) blankChar, Drawn c :=
    fun c hc => List.eq_of_mem_replicate hc ▸ drawn_blankChar
  have hfits : 0 + (List.replicate (s.cursor.maxLines * s.cursor.maxColumns) blankChar).length ≤
      s.cursor.maxLines * s.cursor.maxColumns := by simp
  have hlinear {s' : ConsoleState} (hrun : printChars fb font { s with cursor := s.cursor.reset }
      (List.replicate (s.cursor.maxLines * s.cursor.maxColumns) blankChar) = some s') :=
    printChars_linear hrun hat hcolumns hcolumns' hlines hdrawn hfits
  have hclear : (∃ start, clearScreen fb font s = some start) ↔
      s.cursor.maxLines * s.cursor.maxColumns < 2 ^ 31 ∧
        ∃ s', printChars fb font { s with cursor := s.cursor.reset }
          (List.replicate (s.cursor.maxLines * s.cursor.maxColumns) blankChar) = some s' := by
    simp only [clearScreen_eq_some_iff]
    exact ⟨fun h => h.elim fun _ h => ⟨h.1, h.2.imp fun _ h => h.1⟩,
      fun h => h.2.elim fun t ht => ⟨_, h.1, t, ht, rfl⟩⟩
  refine ⟨?_, ?_, ?_, ?_⟩
  · have hcells : (∀ i < s.cursor.maxLines * s.cursor.maxColumns,
        LineDefined fb font ((0 + i) / s.cursor.maxColumns)) ↔
        ∀ line < s.cursor.maxLines, LineDefined fb font line := by
      constructor
      · intro h line hline
        have hrow : (line + 1) * s.cursor.maxColumns ≤ s.cursor.maxLines * s.cursor.maxColumns :=
          Nat.mul_le_mul_right _ hline
        have hfirst := h (line * s.cursor.maxColumns + 0) (by rw [Nat.add_mul] at hrow; omega)
        rwa [Nat.zero_add, linear_div hcolumns] at hfirst
      · intro h i hi
        apply h
        rw [Nat.zero_add]
        exact Nat.div_lt_of_lt_mul (by rwa [Nat.mul_comm])
    rw [hclear, ← hcells, printChars_isSome_iff hat hcolumns hcolumns' hlines hdrawn hfits,
      List.length_replicate]
  · intro start hrun i hi
    obtain ⟨-, s', hchars, rfl⟩ := clearScreen_eq_some_iff.mp hrun
    have hsplit : List.replicate (s.cursor.maxLines * s.cursor.maxColumns) blankChar =
        List.replicate i blankChar ++
          blankChar :: List.replicate (s.cursor.maxLines * s.cursor.maxColumns - (i + 1)) blankChar := by
      rw [← List.replicate_succ, List.replicate_append_replicate]
      congr 1
      omega
    have hdraws := (hlinear hchars).2.2 _ _ _ hsplit
    rwa [List.length_replicate, Nat.zero_add] at hdraws
  · intro start hrun
    obtain ⟨-, s', hchars, rfl⟩ := clearScreen_eq_some_iff.mp hrun
    refine ⟨_, (hlinear hchars).1, ?_⟩
    intro line column
    rw [List.length_replicate, List.count_reverse]
    exact count_gridCells line column hcolumns
  · intro start hrun
    obtain ⟨-, s', -, rfl⟩ := clearScreen_eq_some_iff.mp hrun
    exact ⟨rfl, rfl⟩

/-- Printing moves linearly through the grid, and clearing covers it exactly once. -/
theorem printing_fills_grid (fb : GraphicsFramebuffer) (font : ConsoleFont) (s : ConsoleState)
    (hlines : s.cursor.maxLines < 2 ^ 16) (hcolumns : 1 ≤ s.cursor.maxColumns)
    (hcolumns' : s.cursor.maxColumns < 2 ^ 16) :
    (∀ chars : List UInt16, s.cursor.line < s.cursor.maxLines →
      s.cursor.column < s.cursor.maxColumns → (∀ c ∈ chars, Drawn c) →
      s.cursor.linear + chars.length ≤ s.cursor.maxLines * s.cursor.maxColumns →
      FillsCells fb font s chars) ∧
    ClearsGrid fb font s := by
  refine ⟨?_, clearsGrid fb font s hlines hcolumns hcolumns'⟩
  intro chars hline hcolumn hdrawn hfits
  have hin : s.cursor.Inside s.cursor.maxLines s.cursor.maxColumns := ⟨⟨rfl, rfl⟩, hcolumn⟩
  have hat := hin.at_linear (by omega)
  have hlinear {s' : ConsoleState} (hrun : printChars fb font s chars = some s') :=
    printChars_linear hrun hat hcolumns hcolumns' hlines hdrawn hfits
  refine ⟨printChars_isSome_iff hat hcolumns hcolumns' hlines hdrawn hfits, ?_, ?_⟩
  · intro s' hrun
    exact (hlinear hrun).2.2
  · intro s' hrun
    exact (hlinear hrun).2.1.linear_eq hlines hfits hcolumns

theorem printing_fills_grid_small :
    (∀ chars : List UInt16, smallConsole.cursor.line < smallConsole.cursor.maxLines →
      smallConsole.cursor.column < smallConsole.cursor.maxColumns → (∀ c ∈ chars, Drawn c) →
      smallConsole.cursor.linear + chars.length ≤
        smallConsole.cursor.maxLines * smallConsole.cursor.maxColumns →
      FillsCells smallScreen smallFont smallConsole chars) ∧
    ClearsGrid smallScreen smallFont smallConsole :=
  printing_fills_grid smallScreen smallFont smallConsole (by decide) (by decide) (by decide)

end Grid

end MyOSKernel
