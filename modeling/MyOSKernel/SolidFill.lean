import MyOSKernel.Pixels

/-! `Framebuffer__set_all_pixels`. The screen is filled column by column, so what a store spills to
its right is repaired by the next column; the last column spills into the padding of the scanline, or
where there is none over the first pixel of the next one and past the end of the framebuffer. -/

namespace MyOSKernel

def setAllPixels (fb : GraphicsFramebuffer) (mem : Memory) (color : Nat) : Option Memory :=
  (List.range fb.width).foldlM (fun mem x =>
    (List.range fb.height).foldlM (fun mem y => setPixel fb mem x y color) mem) mem

/-- The stores of a column. -/
def columnStores (fb : GraphicsFramebuffer) (color x : Nat) : List PixelStore :=
  (List.range fb.height).map fun y => ⟨x, y, color⟩

/-- The stores of the first columns. -/
def fillStores (fb : GraphicsFramebuffer) (color columns : Nat) : List PixelStore :=
  (List.range columns).flatMap (columnStores fb color)

/-- The pixels after the first columns have been filled. -/
def filled (fb : GraphicsFramebuffer) (mem : Memory) (color columns : Nat) : Nat → Nat :=
  Spill.run 0 (pixels fb mem) ((fillStores fb color columns).map (·.cell fb))

section Columns
variable {fb : GraphicsFramebuffer} {mem : Memory} {color x y columns i : Nat} {w : Nat → Nat}

theorem setAllPixels_eq : setAllPixels fb mem color =
    storePixels fb mem (fillStores fb color fb.width) := by
  rw [storePixels, fillStores, foldlM_flatMap, setAllPixels]
  congr 1
  funext mem x
  rw [columnStores, List.foldlM_map]

theorem mem_columnCells {s : Nat × Nat} : s ∈ (columnStores fb color x).map (·.cell fb) ↔
    ∃ y < fb.height, s = (fb.pixelIndex x y, color) := by
  simp only [columnStores, List.map_map, List.mem_map, List.mem_range]
  constructor
  · intro h
    obtain ⟨y, hy, rfl⟩ := h
    exact ⟨y, hy, rfl⟩
  · intro h
    obtain ⟨y, hy, rfl⟩ := h
    exact ⟨y, hy, rfl⟩

theorem ascending_columnCells (hx : x < fb.pixelsPerScanline) :
    Spill.Ascending ((columnStores fb color x).map (·.cell fb)) := by
  rw [columnStores, List.map_map, Spill.Ascending, List.pairwise_map]
  apply List.pairwise_lt_range.imp
  intro y y' hlt
  exact pixelIndex_lt_of_row hx hlt

theorem filled_succ : filled fb mem color (columns + 1) =
    Spill.run 0 (filled fb mem color columns)
      ((columnStores fb color columns).map (·.cell fb)) := by
  rw [filled, fillStores, List.range_succ, List.flatMap_append, List.flatMap_singleton,
    List.map_append, Spill.run_append]
  rfl

/-- A column stores its own pixels. -/
theorem filled_column (hcolumn : columns < fb.pixelsPerScanline) (hy : y < fb.height) :
    filled fb mem color (columns + 1) (fb.pixelIndex columns y) = color := by
  rw [filled_succ]
  exact Spill.run_of_mem (ascending_columnCells hcolumn) (mem_columnCells.mpr ⟨y, hy, rfl⟩)

/-- It spills over the pixels behind them. -/
theorem filled_behind (hcolumn : columns < fb.pixelsPerScanline) (hy : y < fb.height)
    (hother : ∀ y' < fb.height, fb.pixelIndex columns y' ≠ fb.pixelIndex columns y + 1) :
    filled fb mem color (columns + 1) (fb.pixelIndex columns y + 1) = 0 := by
  rw [filled_succ]
  apply Spill.run_of_next (ascending_columnCells hcolumn) (mem_columnCells.mpr ⟨y, hy, rfl⟩)
  intro s hs
  obtain ⟨y', hy', rfl⟩ := mem_columnCells.mp hs
  exact hother y' hy'

/-- And leaves the others. -/
theorem filled_other (h : ∀ y < fb.height,
    i ≠ fb.pixelIndex columns y ∧ i ≠ fb.pixelIndex columns y + 1) :
    filled fb mem color (columns + 1) i = filled fb mem color columns i := by
  rw [filled_succ]
  apply Spill.run_of_untouched
  intro s hs
  obtain ⟨y, hy, rfl⟩ := mem_columnCells.mp hs
  exact h y hy

/-- As long as there is a pixel to their right, the columns filled are solid. -/
theorem filled_eq_color (hcolumns : columns < fb.pixelsPerScanline) (hx : x < columns)
    (hy : y < fb.height) : filled fb mem color columns (fb.pixelIndex x y) = color := by
  induction columns with
  | zero => exact absurd hx (Nat.not_lt_zero x)
  | succ columns ih =>
      by_cases hlast : x = columns
      · rw [hlast]
        exact filled_column (by omega) hy
      · rw [filled_other, ih (by omega) (by omega)]
        intro y' _
        rw [← pixelIndex_succ]
        constructor
        · intro heq
          exact hlast (pixelIndex_inj (by omega) (by omega) heq).1
        · intro heq
          have hsame := (pixelIndex_inj (by omega) hcolumns heq).1
          omega

/-- Beyond the pixel after the last nothing is stored to. -/
theorem filled_beyond (hcolumns : columns ≤ fb.pixelsPerScanline)
    (hi : fb.pixelsPerScanline * fb.height ≤ i)
    (hend : columns = fb.pixelsPerScanline → i ≠ fb.pixelsPerScanline * fb.height) :
    filled fb mem color columns i = pixels fb mem i := by
  induction columns with
  | zero => rfl
  | succ columns ih =>
      rw [filled_other, ih (by omega) (by omega)]
      intro y hy
      have hindex := pixelIndex_lt (x := columns) (by omega) hy
      refine ⟨by omega, ?_⟩
      by_cases hlast : columns + 1 = fb.pixelsPerScanline
      · have hne := hend hlast
        omega
      · have hnext := pixelIndex_lt (x := columns + 1) (by omega) hy
        rw [pixelIndex_succ] at hnext
        omega

/-! ### The last column of unpadded scanlines -/

/-- The pixel behind the last one of a scanline is the first of the next. -/
theorem pixelIndex_wrap (hcolumn : columns + 1 = fb.pixelsPerScanline) :
    fb.pixelIndex columns y + 1 = fb.pixelIndex 0 (y + 1) := by
  rw [GraphicsFramebuffer.pixelIndex, GraphicsFramebuffer.pixelIndex, Nat.add_mul, Nat.one_mul]
  omega

/-- It stays solid where nothing is spilled over it. -/
theorem filled_full_eq_color (hcolumn : columns + 1 = fb.pixelsPerScanline) (hx : x ≤ columns)
    (hy : y < fb.height) (hkept : 0 < x ∨ y = 0 ∨ columns = 0) :
    filled fb mem color (columns + 1) (fb.pixelIndex x y) = color := by
  by_cases hlast : x = columns
  · rw [hlast]
    exact filled_column (by omega) hy
  · rw [filled_other, filled_eq_color (by omega) (by omega) hy]
    intro y' _
    constructor
    · intro heq
      exact hlast (pixelIndex_inj (by omega) (by omega) heq).1
    · intro heq
      rw [pixelIndex_wrap hcolumn] at heq
      obtain ⟨hzero, hrow⟩ := pixelIndex_inj (by omega) (by omega) heq
      omega

/-- The first pixel of a later scanline is blanked when the last column is not the first. -/
theorem filled_full_eq_zero (hcolumn : columns + 1 = fb.pixelsPerScanline) (hpos : 0 < columns)
    (hy : y < fb.height) : filled fb mem color (columns + 1) (fb.pixelIndex 0 (y + 1)) = 0 := by
  rw [← pixelIndex_wrap hcolumn]
  apply filled_behind (by omega) hy
  intro y' _ heq
  rw [pixelIndex_wrap hcolumn] at heq
  have hsame := (pixelIndex_inj (by omega) (by omega) heq).1
  omega

/-- So is the pixel after the last scanline. -/
theorem filled_full_end (hcolumn : columns + 1 = fb.pixelsPerScanline) (hheight : 0 < fb.height) :
    filled fb mem color (columns + 1) (fb.pixelsPerScanline * fb.height) = 0 := by
  have hend : fb.pixelsPerScanline * fb.height = fb.pixelIndex columns (fb.height - 1) + 1 := by
    rw [pixelIndex_wrap hcolumn, Nat.sub_add_cancel hheight, GraphicsFramebuffer.pixelIndex,
      Nat.mul_comm, Nat.add_zero]
  rw [hend]
  apply filled_behind (by omega) (by omega)
  intro y' hy' heq
  have hindex := pixelIndex_lt (x := columns) (by omega) hy'
  omega

/-- Without a column or a scanline nothing is filled. -/
theorem filled_of_empty (hempty : columns = 0 ∨ fb.height = 0) :
    filled fb mem color columns = pixels fb mem := by
  have hnone : fillStores fb color columns = [] := by
    obtain rfl | hheight := hempty
    · rfl
    · simp [fillStores, columnStores, hheight]
  rw [filled, hnone]
  rfl

/-- The pixels of the screen have the colour and those behind the framebuffer are kept exactly when
nothing is filled, the scanlines are padded, or what is spilled to the left and to the end is zero. -/
theorem filled_solid_iff (hscanline : fb.width ≤ fb.pixelsPerScanline) :
    ((∀ x < fb.width, ∀ y < fb.height,
        filled fb mem color fb.width (fb.pixelIndex x y) = color) ∧
      ∀ i, fb.pixelsPerScanline * fb.height ≤ i →
        filled fb mem color fb.width i = pixels fb mem i) ↔
      fb.width = 0 ∨ fb.height = 0 ∨ fb.width < fb.pixelsPerScanline ∨
        (pixels fb mem (fb.pixelsPerScanline * fb.height) = 0 ∧
          (color = 0 ∨ fb.width = 1 ∨ fb.height = 1)) := by
  by_cases hempty : fb.width = 0 ∨ fb.height = 0
  · refine iff_of_true ⟨?_, ?_⟩ (hempty.imp_right Or.inl)
    · intro x hx y hy
      omega
    · intro i _
      rw [filled_of_empty hempty]
  · by_cases hpadded : fb.width < fb.pixelsPerScanline
    · refine iff_of_true ⟨?_, ?_⟩ (Or.inr (Or.inr (Or.inl hpadded)))
      · exact fun x hx y hy => filled_eq_color hpadded hx hy
      · exact fun i hi => filled_beyond hscanline hi fun hwidth => by omega
    · obtain ⟨columns, hcolumns⟩ : ∃ columns, fb.width = columns + 1 := ⟨fb.width - 1, by omega⟩
      have hfull : columns + 1 = fb.pixelsPerScanline := by omega
      rw [hcolumns] at hscanline hempty hpadded ⊢
      constructor
      · intro h
        obtain ⟨hsolid, hbehind⟩ := h
        refine Or.inr (Or.inr (Or.inr ⟨?_, ?_⟩))
        · rw [← hbehind _ le_rfl]
          exact filled_full_end hfull (by omega)
        · by_contra hspilled
          have hpixel := hsolid 0 (by omega) (0 + 1) (by omega)
          rw [filled_full_eq_zero hfull (by omega) (by omega)] at hpixel
          exact hspilled (Or.inl hpixel.symm)
      · intro h
        obtain ⟨hend, hspilled⟩ : pixels fb mem (fb.pixelsPerScanline * fb.height) = 0 ∧
          (color = 0 ∨ columns + 1 = 1 ∨ fb.height = 1) := by omega
        constructor
        · intro x hx y hy
          by_cases hkept : 0 < x ∨ y = 0 ∨ columns = 0
          · exact filled_full_eq_color hfull (by omega) hy hkept
          · -- The pixel is blanked, so the colour is zero.
            obtain ⟨y, rfl⟩ : ∃ y', y = y' + 1 := ⟨y - 1, by omega⟩
            obtain rfl : x = 0 := by omega
            rw [filled_full_eq_zero hfull (by omega) (by omega)]
            omega
        · intro i hi
          by_cases hlast : i = fb.pixelsPerScanline * fb.height
          · rw [hlast, filled_full_end hfull (by omega), hend]
          · exact filled_beyond hscanline hi fun _ => hlast

end Columns

/-- Every pixel of the screen has the colour, and nothing outside the framebuffer has changed. -/
structure SolidFill (fb : GraphicsFramebuffer) (mem mem' : Memory) (color : Nat) : Prop where
  solid : ∀ x < fb.width, ∀ y < fb.height, readPixel fb mem' x y = color
  outside : ∀ b, b ∉ Set.Ico fb.baseAddress (fb.baseAddress + fb.bufferSize) →
    mem'.byte b = mem.byte b

section Fill
variable {fb : GraphicsFramebuffer} {mem mem' : Memory} {color : Nat}

theorem PixelMode.setAllPixels_spec (h : PixelMode fb)
    (hsize : fb.pixelsPerScanline * fb.height * 4 < 2 ^ 31) (hcolor : color < 2 ^ 32) :
    ∃ mem', setAllPixels fb mem color = some mem' ∧
      pixels fb mem' = filled fb mem color fb.width ∧
      ∀ b < fb.baseAddress, mem'.byte b = mem.byte b := by
  have hscanline := h.scanline
  rw [setAllPixels_eq]
  apply h.storePixels_spec
  intro p hp
  obtain ⟨x, hx, hp⟩ := List.mem_flatMap.mp hp
  obtain ⟨y, hy, rfl⟩ := List.mem_map.mp hp
  rw [List.mem_range] at hx hy
  refine ⟨Nat.lt_of_lt_of_le hx hscanline, hy, h.rowDefined_iff.mpr ?_, hcolor⟩
  have hrow : y * fb.pixelsPerScanline ≤ fb.height * fb.pixelsPerScanline :=
    Nat.mul_le_mul_right _ hy.le
  show y * fb.pixelsPerScanline * 4 < 2 ^ 31
  rw [Nat.mul_comm fb.pixelsPerScanline] at hsize
  omega

/-- Bytes outside change only behind the framebuffer. -/
theorem outside_of_pixels (hsize : fb.bufferSize = fb.pixelsPerScanline * fb.height * 4)
    (hbelow : ∀ b < fb.baseAddress, mem'.byte b = mem.byte b)
    (hpixels : ∀ i, fb.pixelsPerScanline * fb.height ≤ i → pixels fb mem' i = pixels fb mem i) :
    ∀ b, b ∉ Set.Ico fb.baseAddress (fb.baseAddress + fb.bufferSize) →
      mem'.byte b = mem.byte b := by
  intro b hb
  by_cases hlow : b < fb.baseAddress
  · exact hbelow b hlow
  · have hhigh : fb.baseAddress + fb.bufferSize ≤ b := by
      by_contra hlt
      exact hb ⟨by omega, by omega⟩
    apply byte_eq_of_pixels_eq (hpixels ((b - fb.baseAddress) / 4) (by omega))
    · omega
    · omega

/-- What the fill has to do, said of the pixels it leaves. -/
theorem PixelMode.solidFill_iff (h : PixelMode fb)
    (hsize : fb.bufferSize = fb.pixelsPerScanline * fb.height * 4)
    (hbelow : ∀ b < fb.baseAddress, mem'.byte b = mem.byte b) :
    SolidFill fb mem mem' color ↔
      (∀ x < fb.width, ∀ y < fb.height, pixels fb mem' (fb.pixelIndex x y) = color) ∧
        ∀ i, fb.pixelsPerScanline * fb.height ≤ i → pixels fb mem' i = pixels fb mem i := by
  have hscanline := h.scanline
  constructor
  · intro hsolid
    constructor
    · intro x hx y hy
      rw [← h.readPixel_eq mem' (by omega) hy]
      exact hsolid.solid x hx y hy
    · intro i hi
      apply Memory.loadLE_congr
      intro b hb
      have hlow := hb.1
      exact hsolid.outside b fun hc => absurd hc.2 (by omega)
  · intro hpixels
    constructor
    · intro x hx y hy
      rw [h.readPixel_eq mem' (by omega) hy]
      exact hpixels.1 x hx y hy
    · exact outside_of_pixels hsize hbelow hpixels.2

/-- The fill is solid exactly when no store is made, the scanlines are padded, or there were zeros
after the framebuffer and nothing is spilled over a pixel already filled. -/
theorem solid_fill_iff (h : PixelMode fb)
    (hsize : fb.bufferSize = fb.pixelsPerScanline * fb.height * 4) (hsize' : fb.bufferSize < 2 ^ 31)
    (hcolor : color < 2 ^ 32) (mem : Memory) :
    (∃ mem', setAllPixels fb mem color = some mem' ∧ SolidFill fb mem mem' color) ↔
      fb.width = 0 ∨ fb.height = 0 ∨ fb.width < fb.pixelsPerScanline ∨
        (mem.loadLE (fb.baseAddress + fb.bufferSize) 4 = 0 ∧
          (color = 0 ∨ fb.width = 1 ∨ fb.height = 1)) := by
  have hbehind : mem.loadLE (fb.baseAddress + fb.bufferSize) 4 =
      pixels fb mem (fb.pixelsPerScanline * fb.height) := by
    rw [pixels, hsize, Nat.mul_comm 4]
  obtain ⟨mem', hrun, hpixels, hbelow⟩ : ∃ mem', setAllPixels fb mem color = some mem' ∧
      pixels fb mem' = filled fb mem color fb.width ∧ ∀ b < fb.baseAddress, mem'.byte b = mem.byte b :=
    h.setAllPixels_spec (hsize ▸ hsize') hcolor
  rw [hbehind, ← filled_solid_iff h.scanline, ← hpixels, ← h.solidFill_iff hsize hbelow, hrun]
  simp only [Option.some.injEq, exists_eq_left']

end Fill

/-- The screen with 32 pixels of padding. -/
def paddedScreen : GraphicsFramebuffer where
  baseAddress := 0xe0000000
  bufferSize := 832 * 600 * 4
  width := 800
  height := 600
  pixelsPerScanline := 832
  bytesPerPixel := 4

theorem solid_fill_iff_padded :
    (∃ mem', setAllPixels paddedScreen ⟨fun _ => 0xff, []⟩ 0xff = some mem' ∧
      SolidFill paddedScreen ⟨fun _ => 0xff, []⟩ mem' 0xff) ↔
      paddedScreen.width = 0 ∨ paddedScreen.height = 0 ∨
        paddedScreen.width < paddedScreen.pixelsPerScanline ∨
          ((⟨fun _ => 0xff, []⟩ : Memory).loadLE
              (paddedScreen.baseAddress + paddedScreen.bufferSize) 4 = 0 ∧
            (0xff = 0 ∨ paddedScreen.width = 1 ∨ paddedScreen.height = 1)) :=
  solid_fill_iff (by refine ⟨?_, ?_, ?_⟩ <;> decide) (by decide) (by decide) (by decide) _

/-- Filling the unpadded screen with blue leaves the first pixel of the second scanline black. -/
theorem fill_not_solid : ¬∃ mem', setAllPixels smallScreen ⟨fun _ => 0, []⟩ 0xff = some mem' ∧
    SolidFill smallScreen ⟨fun _ => 0, []⟩ mem' 0xff := by
  intro h
  obtain ⟨mem', hrun, hsolid⟩ := h
  obtain ⟨mem'', hrun', hpixels, -⟩ : ∃ mem', setAllPixels smallScreen ⟨fun _ => 0, []⟩ 0xff =
      some mem' ∧ pixels smallScreen mem' = filled smallScreen ⟨fun _ => 0, []⟩ 0xff (799 + 1) ∧ _ :=
    pixelMode_small.setAllPixels_spec (by decide) (by decide)
  rw [hrun] at hrun'
  cases hrun'
  have hpixel := hsolid.solid 0 (by decide) 1 (by decide)
  have hzero : filled smallScreen ⟨fun _ => 0, []⟩ 0xff (799 + 1)
      (smallScreen.pixelIndex 0 (0 + 1)) = 0 :=
    filled_full_eq_zero (by decide) (by decide) (by decide)
  rw [pixelMode_small.readPixel_eq mem' (by decide) (by decide), hpixels, hzero] at hpixel
  exact absurd hpixel (by decide)

end MyOSKernel
