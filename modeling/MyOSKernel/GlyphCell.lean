import MyOSKernel.Pixels
import Mathlib.Data.Nat.Bitwise

/-! `Framebuffer__print_glyph`. Row by row and from left to right, each pixel store repairs what the
one before spilled; the last of a row spills over the pixel that follows the row in memory, on the
right of the cell or, at the end of an unpadded scanline, at the start of the next. -/

namespace MyOSKernel

section Row
variable {fb : GraphicsFramebuffer} {glyph : Glyph} {mem : Memory} {x y : Nat}

/-- The cell lies on the screen. -/
structure Glyph.OnScreen (fb : GraphicsFramebuffer) (glyph : Glyph) : Prop where
  width : glyph.xOff + glyph.width ≤ fb.width
  height : glyph.yOff + glyph.height ≤ fb.height
  xOff_lt : fb.width < 2 ^ 16
  yOff_lt : fb.height < 2 ^ 16

/-- The pixel is one of the cell. -/
def Glyph.InCell (glyph : Glyph) (x y : Nat) : Prop :=
  (glyph.xOff ≤ x ∧ x < glyph.xOff + glyph.width) ∧ glyph.yOff ≤ y ∧ y < glyph.yOff + glyph.height

/-- The pixels of the cell in the order they are drawn. -/
def Glyph.positions (glyph : Glyph) : List (Nat × Nat) :=
  (List.range glyph.height).flatMap fun y => (List.range glyph.width).map fun x => (x, y)

/-- The store of a pixel in a colour that is read from `mem`. -/
def Glyph.store (glyph : Glyph) (mem : Memory) (p : Nat × Nat) : PixelStore :=
  ⟨p.1 + glyph.xOff, p.2 + glyph.yOff, glyphColor glyph mem p.1 p.2⟩

theorem mem_positions {p : Nat × Nat} :
    p ∈ glyph.positions ↔ p.1 < glyph.width ∧ p.2 < glyph.height := by
  simp only [Glyph.positions, List.mem_flatMap, List.mem_map, List.mem_range]
  constructor
  · intro h
    obtain ⟨y, hy, x, hx, rfl⟩ := h
    exact ⟨hx, hy⟩
  · intro h
    exact ⟨p.2, h.2, p.1, h.1, rfl⟩

theorem Glyph.OnScreen.position_lt (h : glyph.OnScreen fb) (hmode : PixelMode fb) {p : Nat × Nat}
    (hp : p ∈ glyph.positions) :
    p.1 + glyph.xOff < fb.pixelsPerScanline ∧ p.2 + glyph.yOff < fb.height := by
  obtain ⟨hx, hy⟩ := mem_positions.mp hp
  have hwidth := h.width
  have hheight := h.height
  have hscanline := hmode.scanline
  omega

/-- They follow one another in memory. -/
theorem Glyph.OnScreen.ascending (h : glyph.OnScreen fb) (hmode : PixelMode fb) :
    glyph.positions.Pairwise fun p p' => fb.pixelIndex (p.1 + glyph.xOff) (p.2 + glyph.yOff) <
      fb.pixelIndex (p'.1 + glyph.xOff) (p'.2 + glyph.yOff) := by
  rw [Glyph.positions, List.pairwise_flatMap]
  constructor
  · intro y _
    rw [List.pairwise_map]
    apply List.pairwise_lt_range.imp
    intro x x' hlt
    simp only [GraphicsFramebuffer.pixelIndex]
    omega
  · apply List.Pairwise.imp_of_mem _ List.pairwise_lt_range
    intro y y' hy _ hlt p hp p' hp'
    obtain ⟨x, hx, rfl⟩ := List.mem_map.mp hp
    obtain ⟨x', hx', rfl⟩ := List.mem_map.mp hp'
    have hmem : (x, y) ∈ glyph.positions :=
      mem_positions.mpr ⟨List.mem_range.mp hx, List.mem_range.mp hy⟩
    exact pixelIndex_lt_of_row (h.position_lt hmode hmem).1 (Nat.add_lt_add_right hlt _)

/-- The loops of the code draw them one by one. -/
theorem Glyph.OnScreen.printGlyph_eq (h : glyph.OnScreen fb) : printGlyph fb glyph mem =
    glyph.positions.foldlM (fun mem p => setPixel fb mem (p.1 + glyph.xOff) (p.2 + glyph.yOff)
      (glyphColor glyph mem p.1 p.2)) mem := by
  have hwidth := h.width
  have hheight := h.height
  have hwidth' := h.xOff_lt
  have hheight' := h.yOff_lt
  rw [Glyph.positions, foldlM_flatMap, printGlyph]
  apply foldlM_congr
  intro mem y hy
  rw [List.foldlM_map]
  apply foldlM_congr
  intro mem x hx
  rw [List.mem_range] at hx hy
  rw [Nat.mod_eq_of_lt (by omega), Nat.mod_eq_of_lt (by omega)]

end Row

section Colors
variable {fb : GraphicsFramebuffer} {glyph : Glyph} {mem m m' : Memory} {x y : Nat}

/-- The bitmap lies outside the framebuffer. -/
def Glyph.Apart (fb : GraphicsFramebuffer) (glyph : Glyph) : Prop :=
  ∀ y < glyph.height, (glyph.bitmap + y) % 2 ^ 64 ∉
    Set.Ico fb.baseAddress (fb.baseAddress + fb.pixelsPerScanline * fb.height * 4)

theorem glyphColor_congr
    (h : m'.byte ((glyph.bitmap + y) % 2 ^ 64) = m.byte ((glyph.bitmap + y) % 2 ^ 64)) :
    glyphColor glyph m' x y = glyphColor glyph m x y := by
  rw [glyphColor, glyphColor, h]

/-- The bit the mask of a pixel takes from a row. -/
theorem glyphColor_eq (hx : x < 8) : glyphColor glyph mem x y =
    if (mem.byte ((glyph.bitmap + y) % 2 ^ 64)).toNat.testBit (7 - x) then glyph.fgColor
    else glyph.bgColor := by
  have hmask : (1 <<< 7) >>> x = 2 ^ (7 - x) := by
    rw [Nat.one_shiftLeft, Nat.shiftRight_eq_div_pow]
    exact Nat.pow_div (by omega) (by decide)
  have hbit : (mem.byte ((glyph.bitmap + y) % 2 ^ 64)).toNat &&& 2 ^ (7 - x) > 0 ↔
      (mem.byte ((glyph.bitmap + y) % 2 ^ 64)).toNat.testBit (7 - x) = true := by
    rw [Nat.and_two_pow]
    cases (mem.byte ((glyph.bitmap + y) % 2 ^ 64)).toNat.testBit (7 - x) with
    | false => simp
    | true => simp
  rw [glyphColor, hmask]
  simp only [hbit]

/-- Storing a pixel that another one follows leaves the bitmap. -/
theorem PixelMode.bitmap_of_setPixel (hmode : PixelMode fb) (hapart : glyph.Apart fb)
    {px py color i : Nat} (hpx : px < fb.pixelsPerScanline) (hpy : py < fb.height)
    (hlater : fb.pixelIndex px py < i) (hi : i < fb.pixelsPerScanline * fb.height)
    (hrun : setPixel fb m px py color = some m') (hy : y < glyph.height) :
    m'.byte ((glyph.bitmap + y) % 2 ^ 64) = m.byte ((glyph.bitmap + y) % 2 ^ 64) := by
  unfold setPixel at hrun
  split_ifs at hrun
  cases hrun
  rw [hmode.pixelAddress_eq hpx hpy]
  apply Memory.storeLE_byte_of_notMem
  intro hc
  have hlow := hc.1
  have hhigh := hc.2
  exact hapart y hy ⟨by omega, by omega⟩

/-- Drawing pixels in ascending order from a memory whose bitmap is that of `mem` is storing the
colours of `mem`. -/
theorem Glyph.OnScreen.foldlM_eq_storePixels (h : glyph.OnScreen fb) (hmode : PixelMode fb)
    (hapart : glyph.Apart fb) {l : List (Nat × Nat)} (hpositions : ∀ p ∈ l, p ∈ glyph.positions)
    (hasc : l.Pairwise fun p p' => fb.pixelIndex (p.1 + glyph.xOff) (p.2 + glyph.yOff) <
      fb.pixelIndex (p'.1 + glyph.xOff) (p'.2 + glyph.yOff))
    (hcolors : ∀ p ∈ l, glyphColor glyph m p.1 p.2 = glyphColor glyph mem p.1 p.2) :
    l.foldlM (fun m p => setPixel fb m (p.1 + glyph.xOff) (p.2 + glyph.yOff)
      (glyphColor glyph m p.1 p.2)) m = storePixels fb m (l.map (glyph.store mem)) := by
  induction l generalizing m with
  | nil => rfl
  | cons p l ih =>
      have hp := h.position_lt hmode (hpositions p List.mem_cons_self)
      have htail : ∀ q ∈ l, q ∈ glyph.positions := fun q hq =>
        hpositions q (List.mem_cons_of_mem p hq)
      obtain ⟨hfirst, hasc'⟩ := List.pairwise_cons.mp hasc
      rw [List.foldlM_cons, List.map_cons, storePixels_cons, hcolors p List.mem_cons_self]
      show (setPixel fb m (p.1 + glyph.xOff) (p.2 + glyph.yOff)
        (glyphColor glyph mem p.1 p.2)).bind _ = (setPixel fb m (p.1 + glyph.xOff)
          (p.2 + glyph.yOff) (glyphColor glyph mem p.1 p.2)).bind _
      cases hset : setPixel fb m (p.1 + glyph.xOff) (p.2 + glyph.yOff)
          (glyphColor glyph mem p.1 p.2) with
      | none => rfl
      | some m' =>
          apply ih htail hasc'
          intro q hq
          have hq' := h.position_lt hmode (htail q hq)
          rw [← hcolors q (List.mem_cons_of_mem p hq)]
          apply glyphColor_congr
          exact hmode.bitmap_of_setPixel hapart hp.1 hp.2 (hfirst q hq)
            (pixelIndex_lt hq'.1 hq'.2) hset (mem_positions.mp (htail q hq)).2

/-- So the colours are those of the bitmap at the start. -/
theorem Glyph.OnScreen.printGlyph_eq_storePixels (h : glyph.OnScreen fb) (hmode : PixelMode fb)
    (hapart : glyph.Apart fb) :
    printGlyph fb glyph mem = storePixels fb mem (glyph.positions.map (glyph.store mem)) := by
  rw [h.printGlyph_eq]
  exact h.foldlM_eq_storePixels hmode hapart (fun p hp => hp) (h.ascending hmode) fun p _ => rfl

end Colors

/-- The pixels of the cell show the bitmap, and the others of the screen are as they were. -/
structure PaintsCell (fb : GraphicsFramebuffer) (glyph : Glyph) (mem mem' : Memory) : Prop where
  cell : ∀ x < glyph.width, ∀ y < glyph.height,
    readPixel fb mem' (x + glyph.xOff) (y + glyph.yOff) =
      if (mem.byte ((glyph.bitmap + y) % 2 ^ 64)).toNat.testBit (7 - x) then glyph.fgColor
      else glyph.bgColor
  outside : ∀ x < fb.width, ∀ y < fb.height, ¬glyph.InCell x y →
    readPixel fb mem' x y = readPixel fb mem x y

/-- The pixel follows the row `y` of the cell in memory. -/
def Glyph.Follows (fb : GraphicsFramebuffer) (glyph : Glyph) (y nx ny : Nat) : Prop :=
  fb.pixelIndex nx ny = fb.pixelIndex (glyph.width + glyph.xOff) (y + glyph.yOff)

section Cell
variable {fb : GraphicsFramebuffer} {glyph : Glyph} {mem mem' : Memory} {x y : Nat}

/-- The pixels after a glyph has been drawn. -/
def drawn (fb : GraphicsFramebuffer) (glyph : Glyph) (mem : Memory) : Nat → Nat :=
  Spill.run 0 (pixels fb mem) ((glyph.positions.map (glyph.store mem)).map (·.cell fb))

theorem mem_glyphCells {s : Nat × Nat} :
    s ∈ (glyph.positions.map (glyph.store mem)).map (·.cell fb) ↔
      ∃ x < glyph.width, ∃ y < glyph.height,
        s = (fb.pixelIndex (x + glyph.xOff) (y + glyph.yOff), glyphColor glyph mem x y) := by
  simp only [List.map_map, List.mem_map, mem_positions]
  constructor
  · intro h
    obtain ⟨p, hp, rfl⟩ := h
    exact ⟨p.1, hp.1, p.2, hp.2, rfl⟩
  · intro h
    obtain ⟨x, hx, y, hy, rfl⟩ := h
    exact ⟨(x, y), ⟨hx, hy⟩, rfl⟩

theorem Glyph.OnScreen.ascending_cells (h : glyph.OnScreen fb) (hmode : PixelMode fb) :
    Spill.Ascending ((glyph.positions.map (glyph.store mem)).map (·.cell fb)) := by
  rw [Spill.Ascending, List.pairwise_map, List.pairwise_map]
  exact h.ascending hmode

theorem Glyph.OnScreen.drawn_cell (h : glyph.OnScreen fb) (hmode : PixelMode fb)
    (hx : x < glyph.width) (hy : y < glyph.height) :
    drawn fb glyph mem (fb.pixelIndex (x + glyph.xOff) (y + glyph.yOff)) =
      glyphColor glyph mem x y :=
  Spill.run_of_mem (h.ascending_cells hmode) (mem_glyphCells.mpr ⟨x, hx, y, hy, rfl⟩)

/-- A pixel of the screen with the number of one of the cell is in the cell. -/
theorem Glyph.OnScreen.inCell_of_index (h : glyph.OnScreen fb) (hmode : PixelMode fb) {px py : Nat}
    (hpx : px < fb.width) (hx : x < glyph.width)
    (hindex : fb.pixelIndex px py = fb.pixelIndex (x + glyph.xOff) (y + glyph.yOff))
    (hy : y < glyph.height) : glyph.InCell px py := by
  have hscanline := hmode.scanline
  have hwidth := h.width
  obtain ⟨rfl, rfl⟩ := pixelIndex_inj (by omega) (by omega) hindex
  exact ⟨⟨by omega, by omega⟩, by omega, by omega⟩

/-- The pixel that follows a row is blanked. -/
theorem Glyph.OnScreen.drawn_follows (h : glyph.OnScreen fb) (hmode : PixelMode fb)
    (hwidth : 0 < glyph.width) (hy : y < glyph.height) {nx ny : Nat} (hnx : nx < fb.width)
    (hfollows : glyph.Follows fb y nx ny) (hout : ¬glyph.InCell nx ny) :
    drawn fb glyph mem (fb.pixelIndex nx ny) = 0 := by
  have hlast : fb.pixelIndex nx ny =
      fb.pixelIndex (glyph.width - 1 + glyph.xOff) (y + glyph.yOff) + 1 := by
    rw [hfollows, ← pixelIndex_succ]
    congr 1
    omega
  rw [hlast]
  apply Spill.run_of_next (h.ascending_cells hmode)
    (mem_glyphCells.mpr ⟨glyph.width - 1, by omega, y, hy, rfl⟩)
  intro s hs heq
  obtain ⟨x', hx', y', hy', rfl⟩ := mem_glyphCells.mp hs
  exact hout (h.inCell_of_index hmode hnx hx' (hlast.trans heq.symm) hy')

/-- The others outside are left. -/
theorem Glyph.OnScreen.drawn_outside (h : glyph.OnScreen fb) (hmode : PixelMode fb) {px py : Nat}
    (hpx : px < fb.width) (hout : ¬glyph.InCell px py)
    (hfree : ∀ y < glyph.height, ¬glyph.Follows fb y px py) :
    drawn fb glyph mem (fb.pixelIndex px py) = pixels fb mem (fb.pixelIndex px py) := by
  apply Spill.run_of_untouched
  intro s hs
  obtain ⟨x, hx, y, hy, rfl⟩ := mem_glyphCells.mp hs
  constructor
  · intro heq
    exact hout (h.inCell_of_index hmode hpx hx heq hy)
  · intro heq
    rw [← pixelIndex_succ] at heq
    by_cases hlast : x + 1 = glyph.width
    · apply hfree y hy
      rw [Glyph.Follows, heq, ← hlast]
      congr 1
      omega
    · apply hout
      apply h.inCell_of_index hmode hpx (show x + 1 < glyph.width by omega) _ hy
      rw [heq]
      congr 1
      omega

theorem Glyph.OnScreen.printGlyph_spec (h : glyph.OnScreen fb) (hmode : PixelMode fb)
    (hapart : glyph.Apart fb) (hfg : glyph.fgColor < 2 ^ 32) (hbg : glyph.bgColor < 2 ^ 32)
    (hrows : ∀ y < glyph.height, fb.RowDefined (y + glyph.yOff)) :
    ∃ mem', printGlyph fb glyph mem = some mem' ∧ pixels fb mem' = drawn fb glyph mem := by
  have hvalid : ∀ p ∈ glyph.positions.map (glyph.store mem), p.Valid fb := by
    intro p hp
    obtain ⟨q, hq, rfl⟩ := List.mem_map.mp hp
    obtain ⟨hx, hy⟩ := h.position_lt hmode hq
    refine ⟨hx, hy, hrows _ (mem_positions.mp hq).2, ?_⟩
    show glyphColor glyph mem q.1 q.2 < 2 ^ 32
    unfold glyphColor
    split_ifs
    · exact hfg
    · exact hbg
  obtain ⟨mem', hrun, hpixels, -⟩ := hmode.storePixels_spec hvalid
  exact ⟨mem', by rw [h.printGlyph_eq_storePixels hmode hapart, hrun], hpixels⟩

/-- A run draws on scanlines whose offsets have a value. -/
theorem Glyph.OnScreen.rowDefined_of_printGlyph (h : glyph.OnScreen fb)
    (hrun : printGlyph fb glyph mem = some mem') (hwidth : 0 < glyph.width) (hy : y < glyph.height) :
    fb.RowDefined (y + glyph.yOff) := by
  have hrows : ∀ y ∈ List.range glyph.height, ∀ x ∈ List.range glyph.width,
      fb.RowDefined ((y + glyph.yOff) % 2 ^ 16) := by
    by_contra hstuck
    rw [stores_printGlyph.stuck hstuck] at hrun
    cases hrun
  have hrow := hrows y (List.mem_range.mpr hy) 0 (List.mem_range.mpr hwidth)
  have hheight := h.height
  have hheight' := h.yOff_lt
  rwa [Nat.mod_eq_of_lt (by omega)] at hrow

/-- They all have one when the last does. -/
theorem Glyph.rows_defined_iff (hmode : PixelMode fb) (hheight : 0 < glyph.height) :
    (∀ y < glyph.height, fb.RowDefined (y + glyph.yOff)) ↔
      (glyph.yOff + glyph.height - 1) * fb.pixelsPerScanline * 4 < 2 ^ 31 := by
  rw [← hmode.rowDefined_iff]
  constructor
  · intro h
    have hlast := h (glyph.height - 1) (by omega)
    rwa [Nat.add_comm, ← Nat.add_sub_assoc hheight] at hlast
  · exact fun h y hy => hmode.rowDefined_of_le h (by omega)

/-- A glyph without pixels draws nothing. -/
theorem Glyph.OnScreen.printGlyph_of_empty (h : glyph.OnScreen fb)
    (hempty : glyph.width = 0 ∨ glyph.height = 0) : printGlyph fb glyph mem = some mem := by
  have hpositions : glyph.positions = [] := by
    rw [List.eq_nil_iff_forall_not_mem]
    intro p hp
    have hlt := mem_positions.mp hp
    omega
  rw [h.printGlyph_eq, hpositions]
  rfl

/-- The pixels drawn are those of the cell exactly when what is spilled over was black. -/
theorem Glyph.OnScreen.paintsCell_iff (h : glyph.OnScreen fb) (hmode : PixelMode fb)
    (hwidth : glyph.width ≤ 8) (hpos : 0 < glyph.width)
    (hpixels : pixels fb mem' = drawn fb glyph mem) :
    PaintsCell fb glyph mem mem' ↔
      ∀ y < glyph.height, ∀ nx < fb.width, ∀ ny < fb.height,
        glyph.Follows fb y nx ny → ¬glyph.InCell nx ny → readPixel fb mem nx ny = 0 := by
  have hscanline := hmode.scanline
  have hwidth' := h.width
  have hheight' := h.height
  constructor
  · intro hcell y hy nx hnx ny hny hfollows hout
    rw [← hcell.outside nx hnx ny hny hout, hmode.readPixel_eq mem' (by omega) hny, hpixels]
    exact h.drawn_follows hmode hpos hy hnx hfollows hout
  · intro hblack
    constructor
    · intro x hx y hy
      rw [hmode.readPixel_eq mem' (by omega) (by omega), hpixels, h.drawn_cell hmode hx hy]
      exact glyphColor_eq (by omega)
    · intro px hpx py hpy hout
      by_cases hfollows : ∃ y < glyph.height, glyph.Follows fb y px py
      · obtain ⟨y, hy, hfollows⟩ := hfollows
        rw [hblack y hy px hpx py hpy hfollows hout, hmode.readPixel_eq mem' (by omega) hpy, hpixels]
        exact h.drawn_follows hmode hpos hy hpx hfollows hout
      · rw [hmode.readPixel_eq mem' (by omega) hpy, hmode.readPixel_eq mem (by omega) hpy, hpixels]
        exact h.drawn_outside hmode hpx hout fun y hy hc => hfollows ⟨y, hy, hc⟩

/-- A glyph paints its cell and nothing else exactly when it has no pixels, or the offset of its last
scanline fits the type `int` and every pixel of the screen that follows a row of the cell in memory,
and is not in the cell itself, was black. -/
theorem glyph_paints_cell_iff (hmode : PixelMode fb) (h : glyph.OnScreen fb) (hwidth : glyph.width ≤ 8)
    (hfg : glyph.fgColor < 2 ^ 32) (hbg : glyph.bgColor < 2 ^ 32) (hapart : glyph.Apart fb)
    (mem : Memory) :
    (∃ mem', printGlyph fb glyph mem = some mem' ∧ PaintsCell fb glyph mem mem') ↔
      glyph.width = 0 ∨ glyph.height = 0 ∨
        ((glyph.yOff + glyph.height - 1) * fb.pixelsPerScanline * 4 < 2 ^ 31 ∧
          ∀ y < glyph.height, ∀ nx < fb.width, ∀ ny < fb.height,
            glyph.Follows fb y nx ny → ¬glyph.InCell nx ny → readPixel fb mem nx ny = 0) := by
  by_cases hempty : glyph.width = 0 ∨ glyph.height = 0
  · refine iff_of_true ⟨mem, h.printGlyph_of_empty hempty, ?_, fun x _ y _ _ => rfl⟩
      (hempty.imp_right Or.inl)
    intro x hx y hy
    omega
  · obtain ⟨hwide, hhigh⟩ := not_or.mp hempty
    rw [or_iff_right hwide, or_iff_right hhigh,
      ← Glyph.rows_defined_iff hmode (Nat.pos_of_ne_zero hhigh)]
    constructor
    · intro hpaints
      obtain ⟨mem', hrun, hcell⟩ := hpaints
      have hrows : ∀ y < glyph.height, fb.RowDefined (y + glyph.yOff) := fun y hy =>
        h.rowDefined_of_printGlyph hrun (Nat.pos_of_ne_zero hwide) hy
      obtain ⟨mem'', hrun', hpixels⟩ := h.printGlyph_spec hmode hapart hfg hbg hrows
      rw [hrun] at hrun'
      cases hrun'
      exact ⟨hrows, (h.paintsCell_iff hmode hwidth (Nat.pos_of_ne_zero hwide) hpixels).mp hcell⟩
    · intro hcond
      obtain ⟨hrows, hblack⟩ := hcond
      obtain ⟨mem', hrun, hpixels⟩ := h.printGlyph_spec hmode hapart hfg hbg hrows
      exact ⟨mem', hrun,
        (h.paintsCell_iff hmode hwidth (Nat.pos_of_ne_zero hwide) hpixels).mpr hblack⟩

end Cell

/-- The first glyph of a font of 8 by 16, at the top left of the screen. -/
def smallGlyph : Glyph where
  bitmap := 0x10004
  xOff := 0
  yOff := 0
  height := 16
  width := 8
  fgColor := 0xffffff
  bgColor := 0

theorem onScreen_small : smallGlyph.OnScreen smallScreen := by
  refine ⟨?_, ?_, ?_, ?_⟩ <;> decide

theorem apart_small : smallGlyph.Apart smallScreen := by
  intro y hy hc
  have hlow : 0xe0000000 ≤ (0x10004 + y) % 2 ^ 64 := hc.1
  have hy' : y < 16 := hy
  omega

theorem glyph_paints_cell_iff_small :
    (∃ mem', printGlyph smallScreen smallGlyph ⟨fun _ => 0, []⟩ = some mem' ∧
      PaintsCell smallScreen smallGlyph ⟨fun _ => 0, []⟩ mem') ↔
      smallGlyph.width = 0 ∨ smallGlyph.height = 0 ∨
        ((smallGlyph.yOff + smallGlyph.height - 1) * smallScreen.pixelsPerScanline * 4 < 2 ^ 31 ∧
          ∀ y < smallGlyph.height, ∀ nx < smallScreen.width, ∀ ny < smallScreen.height,
            smallGlyph.Follows smallScreen y nx ny → ¬smallGlyph.InCell nx ny →
              readPixel smallScreen ⟨fun _ => 0, []⟩ nx ny = 0) :=
  glyph_paints_cell_iff pixelMode_small onScreen_small (by decide) (by decide) (by decide) apart_small
    ⟨fun _ => 0, []⟩

/-- On a white screen the pixel to the right of the cell turns black. -/
theorem glyph_spills : ¬∃ mem', printGlyph smallScreen smallGlyph ⟨fun _ => 0xff, []⟩ = some mem' ∧
    PaintsCell smallScreen smallGlyph ⟨fun _ => 0xff, []⟩ mem' := by
  intro h
  obtain ⟨mem', hrun, hcell⟩ := h
  obtain ⟨mem'', hrun', hpixels⟩ := onScreen_small.printGlyph_spec pixelMode_small apart_small
    (by decide) (by decide) fun y hy =>
      onScreen_small.rowDefined_of_printGlyph hrun (by decide) hy
  rw [hrun] at hrun'
  cases hrun'
  have hout : ¬smallGlyph.InCell 8 0 := fun hc => absurd hc.1.2 (by decide)
  have hkept := hcell.outside 8 (by decide) 0 (by decide) hout
  have hfollows : smallGlyph.Follows smallScreen 0 8 0 := rfl
  rw [pixelMode_small.readPixel_eq mem' (by decide) (by decide), hpixels,
    onScreen_small.drawn_follows pixelMode_small (by decide) (by decide) (by decide) hfollows
      hout] at hkept
  exact absurd hkept (by decide)

end MyOSKernel
