import MyOSKernel.PhysicalInit

/-! Drawing on the framebuffer, of `framebuffer.c`. A pixel is stored as eight bytes whatever its
depth, so each store reaches over the next pixel; its offset is computed in the type `int`. -/

namespace MyOSKernel

/-- The step is defined when `ok` holds, and then stores to the addresses in `dest`. -/
structure Stores (f : Memory → Option Memory) (ok : Prop) (dest : Set Nat) : Prop where
  run : ok → ∀ m, ∃ m', f m = some m' ∧ ∀ b, b ∈ m'.writes ↔ b ∈ dest ∨ b ∈ m.writes
  stuck : ¬ok → ∀ m, f m = none

/-- A loop of steps stores where its rounds do. -/
theorem Stores.foldlM {α : Type} {f : Memory → α → Option Memory} {ok : α → Prop}
    {dest : α → Set Nat} (l : List α) (h : ∀ a ∈ l, Stores (f · a) (ok a) (dest a)) :
    Stores (fun m => l.foldlM f m) (∀ a ∈ l, ok a) {b | ∃ a ∈ l, b ∈ dest a} := by
  induction l with
  | nil =>
      constructor
      · intro _ m
        exact ⟨m, rfl, by simp⟩
      · intro hok
        exact absurd (by simp) hok
  | cons a l ih =>
      have hhead := h a List.mem_cons_self
      have htail := ih fun a' ha' => h a' (List.mem_cons_of_mem a ha')
      constructor
      · intro hok m
        obtain ⟨m₁, hrun₁, hwrites₁⟩ := hhead.run (hok a List.mem_cons_self) m
        obtain ⟨m₂, hrun₂, hwrites₂⟩ :=
          htail.run (fun a' ha' => hok a' (List.mem_cons_of_mem a ha')) m₁
        refine ⟨m₂, ?_, ?_⟩
        · show (f m a).bind (fun m => l.foldlM f m) = some m₂
          rw [hrun₁]
          exact hrun₂
        · intro b
          rw [hwrites₂, hwrites₁]
          simp [or_assoc, or_left_comm]
      · intro hok m
        show (f m a).bind (fun m => l.foldlM f m) = none
        by_cases ha : ok a
        · obtain ⟨m₁, hrun₁, -⟩ := hhead.run ha m
          rw [hrun₁]
          exact htail.stuck (fun hall => hok (List.forall_mem_cons.mpr ⟨ha, hall⟩)) m₁
        · rw [hhead.stuck ha m]
          rfl

/-- The global framebuffer, with the fields drawing reads. -/
structure GraphicsFramebuffer extends Framebuffer where
  width : Nat
  height : Nat
  pixelsPerScanline : Nat
  bytesPerPixel : Nat

structure Glyph where
  bitmap : Nat
  xOff : Nat
  yOff : Nat
  height : Nat
  width : Nat
  fgColor : Nat
  bgColor : Nat

/-- The offset of a scanline is a product of type `int`, without a value when it overflows. -/
def GraphicsFramebuffer.RowDefined (fb : GraphicsFramebuffer) (y : Nat) : Prop :=
  y * fb.pixelsPerScanline < 2 ^ 31 ∧ y * fb.pixelsPerScanline * fb.bytesPerPixel < 2 ^ 31

instance (fb : GraphicsFramebuffer) (y : Nat) : Decidable (fb.RowDefined y) :=
  inferInstanceAs (Decidable (_ ∧ _))

def GraphicsFramebuffer.pixelAddress (fb : GraphicsFramebuffer) (x y : Nat) : Nat :=
  (fb.baseAddress + y * fb.pixelsPerScanline * fb.bytesPerPixel + x * fb.bytesPerPixel) % 2 ^ 64

def setPixel (fb : GraphicsFramebuffer) (mem : Memory) (x y color : Nat) : Option Memory :=
  if fb.RowDefined y then some (mem.storeLE (fb.pixelAddress x y) color 8) else none

/-- The foreground where the bit of the glyph's bitmap is set. A row has eight bits; the mask of a
pixel further right is zero, also where the shift exceeds the type's width. -/
def glyphColor (glyph : Glyph) (mem : Memory) (x y : Nat) : Nat :=
  if (mem.byte ((glyph.bitmap + y) % 2 ^ 64)).toNat &&& ((1 <<< 7) >>> x) > 0 then glyph.fgColor
  else glyph.bgColor

def printGlyph (fb : GraphicsFramebuffer) (glyph : Glyph) (mem : Memory) : Option Memory :=
  (List.range glyph.height).foldlM (fun mem y =>
    (List.range glyph.width).foldlM (fun mem x =>
      setPixel fb mem ((x + glyph.xOff) % 2 ^ 16) ((y + glyph.yOff) % 2 ^ 16)
        (glyphColor glyph mem x y)) mem) mem

section Glyph
variable {fb : GraphicsFramebuffer} {glyph : Glyph}

theorem stores_setPixel (x y : Nat) (color : Memory → Nat) :
    Stores (fun mem => setPixel fb mem x y (color mem)) (fb.RowDefined y)
      (Set.Ico (fb.pixelAddress x y) (fb.pixelAddress x y + 8)) := by
  constructor
  · intro hrow mem
    exact ⟨_, if_pos hrow, fun b => Memory.mem_writes_storeLE _⟩
  · intro hrow mem
    exact if_neg hrow

/-- The pixels of a glyph. -/
def Glyph.bytes (fb : GraphicsFramebuffer) (glyph : Glyph) : Set Nat :=
  {b | ∃ y ∈ List.range glyph.height, ∃ x ∈ List.range glyph.width,
    b ∈ Set.Ico (fb.pixelAddress ((x + glyph.xOff) % 2 ^ 16) ((y + glyph.yOff) % 2 ^ 16))
      (fb.pixelAddress ((x + glyph.xOff) % 2 ^ 16) ((y + glyph.yOff) % 2 ^ 16) + 8)}

theorem stores_printGlyph : Stores (printGlyph fb glyph)
    (∀ y ∈ List.range glyph.height, ∀ x ∈ List.range glyph.width,
      fb.RowDefined ((y + glyph.yOff) % 2 ^ 16)) (glyph.bytes fb) := by
  apply Stores.foldlM
  intro y _
  apply Stores.foldlM
  intro x _
  exact stores_setPixel _ _ fun mem => glyphColor glyph mem x y

end Glyph

end MyOSKernel
