import MyOSKernel.Framebuffer
import MyOSKernel.Spill

/-! The framebuffer as an array of 32-bit pixels, scanline after scanline. A pixel store of eight
bytes is, on this array, a store that spills over the next pixel with the upper half of the value,
which is zero for a 32-bit colour. -/

namespace MyOSKernel

section Rows
variable {columns line column : Nat}

theorem linear_div (hcolumn : column < columns) : (line * columns + column) / columns = line := by
  rw [Nat.mul_comm, Nat.mul_add_div (by omega), Nat.div_eq_of_lt hcolumn, Nat.add_zero]

theorem linear_mod (hcolumn : column < columns) : (line * columns + column) % columns = column := by
  rw [Nat.mul_comm, Nat.mul_add_mod, Nat.mod_eq_of_lt hcolumn]

end Rows

/-- A framebuffer of 32-bit pixels: scanlines as long as the screen is wide, or padded. -/
structure PixelMode (fb : GraphicsFramebuffer) : Prop where
  depth : fb.bytesPerPixel = 4
  scanline : fb.width ≤ fb.pixelsPerScanline
  inMemory : fb.baseAddress + fb.pixelsPerScanline * fb.height * 4 ≤ 2 ^ 64

/-- The number of a pixel in the order of memory. -/
def GraphicsFramebuffer.pixelIndex (fb : GraphicsFramebuffer) (x y : Nat) : Nat :=
  y * fb.pixelsPerScanline + x

/-- The pixels of the memory from the framebuffer on. -/
def pixels (fb : GraphicsFramebuffer) (mem : Memory) (i : Nat) : Nat :=
  mem.loadLE (fb.baseAddress + 4 * i) 4

/-- The value of a pixel of the screen. -/
def readPixel (fb : GraphicsFramebuffer) (mem : Memory) (x y : Nat) : Nat :=
  mem.loadLE (fb.pixelAddress x y) 4

section Index
variable {fb : GraphicsFramebuffer} {x y x' y' : Nat}

theorem pixelIndex_lt (hx : x < fb.pixelsPerScanline) (hy : y < fb.height) :
    fb.pixelIndex x y < fb.pixelsPerScanline * fb.height := by
  have hrow : (y + 1) * fb.pixelsPerScanline ≤ fb.height * fb.pixelsPerScanline :=
    Nat.mul_le_mul_right _ hy
  rw [Nat.add_mul, Nat.one_mul] at hrow
  rw [GraphicsFramebuffer.pixelIndex, Nat.mul_comm fb.pixelsPerScanline]
  omega

theorem pixelIndex_inj (hx : x < fb.pixelsPerScanline) (hx' : x' < fb.pixelsPerScanline)
    (h : fb.pixelIndex x y = fb.pixelIndex x' y') : x = x' ∧ y = y' := by
  unfold GraphicsFramebuffer.pixelIndex at h
  constructor
  · calc x = (y * fb.pixelsPerScanline + x) % fb.pixelsPerScanline := (linear_mod hx).symm
      _ = (y' * fb.pixelsPerScanline + x') % fb.pixelsPerScanline := by rw [h]
      _ = x' := linear_mod hx'
  · calc y = (y * fb.pixelsPerScanline + x) / fb.pixelsPerScanline := (linear_div hx).symm
      _ = (y' * fb.pixelsPerScanline + x') / fb.pixelsPerScanline := by rw [h]
      _ = y' := linear_div hx'

theorem pixelIndex_lt_of_row (hx : x < fb.pixelsPerScanline) (hy : y < y') :
    fb.pixelIndex x y < fb.pixelIndex x' y' := by
  have hrow : (y + 1) * fb.pixelsPerScanline ≤ y' * fb.pixelsPerScanline :=
    Nat.mul_le_mul_right _ hy
  rw [Nat.add_mul, Nat.one_mul] at hrow
  unfold GraphicsFramebuffer.pixelIndex
  omega

theorem pixelIndex_succ : fb.pixelIndex (x + 1) y = fb.pixelIndex x y + 1 :=
  (Nat.add_assoc _ _ _).symm

theorem PixelMode.pixelAddress_eq (h : PixelMode fb) (hx : x < fb.pixelsPerScanline)
    (hy : y < fb.height) : fb.pixelAddress x y = fb.baseAddress + 4 * fb.pixelIndex x y := by
  have hmem := h.inMemory
  have hindex := pixelIndex_lt hx hy
  unfold GraphicsFramebuffer.pixelIndex at hindex ⊢
  rw [GraphicsFramebuffer.pixelAddress, h.depth, Nat.mod_eq_of_lt (by omega)]
  omega

theorem PixelMode.readPixel_eq (h : PixelMode fb) (mem : Memory) (hx : x < fb.pixelsPerScanline)
    (hy : y < fb.height) : readPixel fb mem x y = pixels fb mem (fb.pixelIndex x y) := by
  rw [readPixel, h.pixelAddress_eq hx hy, pixels]

theorem PixelMode.rowDefined_iff (h : PixelMode fb) :
    fb.RowDefined y ↔ y * fb.pixelsPerScanline * 4 < 2 ^ 31 := by
  rw [GraphicsFramebuffer.RowDefined, h.depth]
  omega

/-- A scanline is defined when a later one is. -/
theorem PixelMode.rowDefined_of_le (h : PixelMode fb) (hrow : fb.RowDefined y') (hle : y ≤ y') :
    fb.RowDefined y := by
  rw [h.rowDefined_iff] at hrow ⊢
  have hmul : y * fb.pixelsPerScanline ≤ y' * fb.pixelsPerScanline := Nat.mul_le_mul_right _ hle
  omega

end Index

section Store
variable {fb : GraphicsFramebuffer} {mem : Memory} {x y i color : Nat}

theorem pixels_storeLE (hcolor : color < 2 ^ 32) :
    pixels fb (mem.storeLE (fb.baseAddress + 4 * i) color 8) =
      Spill.put 0 (pixels fb mem) i color := by
  have hsplit : mem.storeLE (fb.baseAddress + 4 * i) color 8 =
      (mem.storeLE (fb.baseAddress + 4 * i) color 4).storeLE (fb.baseAddress + 4 * i + 4)
        (color / 256 ^ 4) 4 := Memory.storeLE_add color 4 4
  have hupper : color / 256 ^ 4 = 0 := Nat.div_eq_of_lt (by omega)
  funext j
  rw [pixels, hsplit, hupper]
  by_cases hself : j = i
  · rw [hself, Spill.put_self, Memory.loadLE_storeLE_of_disjoint _ (by omega), Memory.loadLE_storeLE]
    exact Nat.mod_eq_of_lt (by omega)
  · by_cases hnext : j = i + 1
    · rw [hnext, Spill.put_succ, show fb.baseAddress + 4 * (i + 1) = fb.baseAddress + 4 * i + 4 by ring,
        Memory.loadLE_storeLE]
      rfl
    · rw [Spill.put_of_ne hself hnext, Memory.loadLE_storeLE_of_disjoint _ (by omega),
        Memory.loadLE_storeLE_of_disjoint _ (by omega), pixels]

/-- A pixel store. -/
structure PixelStore where
  x : Nat
  y : Nat
  color : Nat

/-- The store is to a pixel of the framebuffer, whose offset has a value. -/
structure PixelStore.Valid (fb : GraphicsFramebuffer) (p : PixelStore) : Prop where
  x : p.x < fb.pixelsPerScanline
  y : p.y < fb.height
  row : fb.RowDefined p.y
  color : p.color < 2 ^ 32

def PixelStore.cell (fb : GraphicsFramebuffer) (p : PixelStore) : Nat × Nat :=
  (fb.pixelIndex p.x p.y, p.color)

def storePixels (fb : GraphicsFramebuffer) (mem : Memory) (l : List PixelStore) : Option Memory :=
  l.foldlM (fun mem p => setPixel fb mem p.x p.y p.color) mem

theorem PixelMode.setPixel_eq (h : PixelMode fb) {p : PixelStore} (hp : p.Valid fb) :
    setPixel fb mem p.x p.y p.color =
      some (mem.storeLE (fb.baseAddress + 4 * fb.pixelIndex p.x p.y) p.color 8) := by
  rw [setPixel, if_pos hp.row, h.pixelAddress_eq hp.x hp.y]

theorem storePixels_cons {p : PixelStore} {l : List PixelStore} : storePixels fb mem (p :: l) =
    (setPixel fb mem p.x p.y p.color).bind fun mem => storePixels fb mem l := rfl

/-- Pixel stores are spilling stores on the array of pixels, and change nothing before it. -/
theorem PixelMode.storePixels_spec (h : PixelMode fb) {l : List PixelStore}
    (hl : ∀ p ∈ l, p.Valid fb) : ∃ mem', storePixels fb mem l = some mem' ∧
      pixels fb mem' = Spill.run 0 (pixels fb mem) (l.map (·.cell fb)) ∧
      ∀ b < fb.baseAddress, mem'.byte b = mem.byte b := by
  induction l generalizing mem with
  | nil => exact ⟨mem, rfl, rfl, fun b _ => rfl⟩
  | cons p l ih =>
      have hp := hl p List.mem_cons_self
      obtain ⟨mem', hrun, hpixels, hbelow⟩ := ih fun p' hp' => hl p' (List.mem_cons_of_mem p hp')
      refine ⟨mem', ?_, ?_, ?_⟩
      · rw [storePixels_cons, h.setPixel_eq hp, Option.bind_some, hrun]
      · rw [hpixels, pixels_storeLE hp.color]
        rfl
      · intro b hb
        rw [hbelow b hb]
        apply Memory.storeLE_byte_of_notMem
        intro hmem
        have hlow := hmem.1
        omega

/-- Nested loops are one loop over the list of their rounds. -/
theorem foldlM_flatMap {α β γ : Type} {f : β → α → Option β} {l : List γ} {g : γ → List α} {b : β} :
    (l.flatMap g).foldlM f b = l.foldlM (fun b c => (g c).foldlM f b) b := by
  induction l generalizing b with
  | nil => rfl
  | cons c l ih =>
      rw [List.flatMap_cons, List.foldlM_append, List.foldlM_cons]
      congr 1
      funext b'
      exact ih

/-- Loops whose rounds agree are one loop. -/
theorem foldlM_congr {α β : Type} {f g : β → α → Option β} {l : List α} {b : β}
    (h : ∀ b, ∀ a ∈ l, f b a = g b a) : l.foldlM f b = l.foldlM g b := by
  induction l generalizing b with
  | nil => rfl
  | cons a l ih =>
      rw [List.foldlM_cons, List.foldlM_cons, h b a List.mem_cons_self]
      congr 1
      funext b'
      exact ih fun b a' ha' => h b a' (List.mem_cons_of_mem a ha')

/-- The bytes of a pixel are determined by its value. -/
theorem byte_eq_of_pixels_eq {mem' : Memory} {b : Nat} (h : pixels fb mem' i = pixels fb mem i)
    (hlow : fb.baseAddress + 4 * i ≤ b) (hhigh : b < fb.baseAddress + 4 * i + 4) :
    mem'.byte b = mem.byte b :=
  Memory.byte_eq_of_loadLE_eq h ⟨hlow, hhigh⟩

end Store

/-- A screen of 800 by 600 pixels. -/
def smallScreen : GraphicsFramebuffer where
  baseAddress := 0xe0000000
  bufferSize := 800 * 600 * 4
  width := 800
  height := 600
  pixelsPerScanline := 800
  bytesPerPixel := 4

theorem pixelMode_small : PixelMode smallScreen := by
  refine ⟨?_, ?_, ?_⟩ <;> decide

end MyOSKernel
