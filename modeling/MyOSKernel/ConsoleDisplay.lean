import MyOSKernel.ConsoleGrid
import MyOSKernel.GlyphCell

/-! What the screen shows after any sequence of calls of the console. A call draws glyphs one after the
other; each of them decides the pixels of its cell and blackens those that follow its rows in memory, so
a pixel shows what the last glyph that reached it left there. -/

namespace MyOSKernel

instance (glyph : Glyph) (x y : Nat) : Decidable (glyph.InCell x y) :=
  inferInstanceAs (Decidable (_ ∧ _))

instance (fb : GraphicsFramebuffer) (glyph : Glyph) (y nx ny : Nat) :
    Decidable (glyph.Follows fb y nx ny) := inferInstanceAs (Decidable (_ = _))

/-- What a glyph leaves in a pixel it reaches: in its cell the colour its bitmap says, and black in the
pixel that follows a row in memory, which is no pixel of the glyph. -/
def Glyph.leaves (fb : GraphicsFramebuffer) (glyph : Glyph) (mem : Memory) (px py : Nat) :
    Option Nat :=
  if glyph.InCell px py then some (glyphColor glyph mem (px - glyph.xOff) (py - glyph.yOff))
  else if ∃ y < glyph.height, glyph.Follows fb y px py then some 0
  else none

def drawGlyphs (fb : GraphicsFramebuffer) (mem : Memory) (glyphs : List Glyph) : Option Memory :=
  glyphs.foldlM (fun mem glyph => printGlyph fb glyph mem) mem

/-- The bytes of the framebuffer's pixels. -/
def framebufferBytes (fb : GraphicsFramebuffer) : Set Nat :=
  Set.Ico fb.baseAddress (fb.baseAddress + fb.pixelsPerScanline * fb.height * 4)

/-- The bytes a glyph may be stored to: the eight bytes of the last pixel's store end four bytes behind
the framebuffer. -/
def reachedBytes (fb : GraphicsFramebuffer) : Set Nat :=
  Set.Ico fb.baseAddress (fb.baseAddress + fb.pixelsPerScanline * fb.height * 4 + 4)

/-- The glyph lies on the screen and its bitmap apart from it. -/
structure Glyph.Drawable (fb : GraphicsFramebuffer) (glyph : Glyph) : Prop where
  onScreen : glyph.OnScreen fb
  width : 0 < glyph.width
  apart : ∀ y < glyph.height, (glyph.bitmap + y) % 2 ^ 64 ∉ reachedBytes fb
  fgColor : glyph.fgColor < 2 ^ 32
  bgColor : glyph.bgColor < 2 ^ 32

/-- The pixel shows what the last of the glyphs that reached it leaves there, by the bitmap it had in
`mem`. -/
structure ShowsLast (fb : GraphicsFramebuffer) (glyphs : List Glyph) (mem mem' : Memory)
    (px py : Nat) : Prop where
  last : ∀ before glyph after color, glyphs = before ++ glyph :: after →
    glyph.leaves fb mem px py = some color → (∀ later ∈ after, later.leaves fb mem px py = none) →
      readPixel fb mem' px py = color
  untouched : (∀ glyph ∈ glyphs, glyph.leaves fb mem px py = none) →
    readPixel fb mem' px py = readPixel fb mem px py

section Glyphs
variable {fb : GraphicsFramebuffer} {glyph : Glyph} {glyphs : List Glyph} {mem mem' : Memory}
  {px py b : Nat}

theorem framebufferBytes_subset : framebufferBytes fb ⊆ reachedBytes fb :=
  Set.Ico_subset_Ico_right (Nat.le_add_right _ 4)

theorem Glyph.Drawable.bitmap_apart (h : glyph.Drawable fb) : glyph.Apart fb :=
  fun y hy hmem => h.apart y hy (framebufferBytes_subset hmem)

/-- The bytes of a pixel's store. -/
def PixelStore.bytes (fb : GraphicsFramebuffer) (p : PixelStore) : Set Nat :=
  Set.Ico (fb.baseAddress + 4 * fb.pixelIndex p.x p.y) (fb.baseAddress + 4 * fb.pixelIndex p.x p.y + 8)

theorem PixelStore.Valid.bytes_subset {p : PixelStore} (h : p.Valid fb) :
    p.bytes fb ⊆ reachedBytes fb := by
  have hindex := pixelIndex_lt h.x h.y
  exact Set.Ico_subset_Ico (by omega) (by omega)

/-- The store of a pixel that is not the last of its scanline ends in the next one. -/
theorem PixelStore.Valid.bytes_subset_framebuffer {p : PixelStore} (h : p.Valid fb)
    (hx : p.x + 1 < fb.pixelsPerScanline) : p.bytes fb ⊆ framebufferBytes fb := by
  have hindex : fb.pixelIndex (p.x + 1) p.y < fb.pixelsPerScanline * fb.height := pixelIndex_lt hx h.y
  have hnext : fb.pixelIndex (p.x + 1) p.y = fb.pixelIndex p.x p.y + 1 := by
    unfold GraphicsFramebuffer.pixelIndex
    omega
  exact Set.Ico_subset_Ico (by omega) (by omega)

theorem PixelMode.storePixels_byte (hmode : PixelMode fb) {l : List PixelStore}
    (hl : ∀ p ∈ l, p.Valid fb) (hb : ∀ p ∈ l, b ∉ p.bytes fb)
    (hrun : storePixels fb mem l = some mem') : mem'.byte b = mem.byte b := by
  induction l generalizing mem with
  | nil =>
      cases hrun
      rfl
  | cons p l ih =>
      rw [storePixels_cons, hmode.setPixel_eq (hl p List.mem_cons_self), Option.bind_some] at hrun
      rw [ih (fun p' hp' => hl p' (List.mem_cons_of_mem p hp'))
        (fun p' hp' => hb p' (List.mem_cons_of_mem p hp')) hrun]
      exact Memory.storeLE_byte_of_notMem _ (hb p List.mem_cons_self)

theorem Glyph.Drawable.stores_valid (h : glyph.Drawable fb) (hmode : PixelMode fb)
    (hrun : printGlyph fb glyph mem = some mem') :
    ∀ p ∈ glyph.positions.map (glyph.store mem), p.Valid fb := by
  intro p hp
  obtain ⟨q, hq, rfl⟩ := List.mem_map.mp hp
  obtain ⟨hx, hy⟩ := h.onScreen.position_lt hmode hq
  refine ⟨hx, hy, h.onScreen.rowDefined_of_printGlyph hrun h.width (mem_positions.mp hq).2, ?_⟩
  show glyphColor glyph mem q.1 q.2 < 2 ^ 32
  unfold glyphColor
  split_ifs
  · exact h.fgColor
  · exact h.bgColor

theorem Glyph.Drawable.printGlyph_byte (h : glyph.Drawable fb) (hmode : PixelMode fb)
    (hrun : printGlyph fb glyph mem = some mem')
    (hb : ∀ p ∈ glyph.positions.map (glyph.store mem), b ∉ p.bytes fb) : mem'.byte b = mem.byte b := by
  have hvalid := h.stores_valid hmode hrun
  rw [h.onScreen.printGlyph_eq_storePixels hmode h.bitmap_apart] at hrun
  exact hmode.storePixels_byte hvalid hb hrun

/-- A glyph leaves every byte that it may not be stored to. -/
theorem Glyph.Drawable.printGlyph_outside (h : glyph.Drawable fb) (hmode : PixelMode fb)
    (hrun : printGlyph fb glyph mem = some mem') (hb : b ∉ reachedBytes fb) :
    mem'.byte b = mem.byte b :=
  h.printGlyph_byte hmode hrun fun p hp hmem => hb ((h.stores_valid hmode hrun p hp).bytes_subset hmem)

/-- Where it does not end with the scanline, every byte that is not the framebuffer's. -/
theorem Glyph.Drawable.printGlyph_inside (h : glyph.Drawable fb) (hmode : PixelMode fb)
    (hrun : printGlyph fb glyph mem = some mem')
    (hright : glyph.xOff + glyph.width < fb.pixelsPerScanline) (hb : b ∉ framebufferBytes fb) :
    mem'.byte b = mem.byte b := by
  refine h.printGlyph_byte hmode hrun fun p hp hmem => hb ?_
  refine (h.stores_valid hmode hrun p hp).bytes_subset_framebuffer ?_ hmem
  obtain ⟨q, hq, rfl⟩ := List.mem_map.mp hp
  have hx := (mem_positions.mp hq).1
  show q.1 + glyph.xOff + 1 < fb.pixelsPerScanline
  omega

/-- And gives the pixels it reaches their colours. -/
theorem Glyph.Drawable.readPixel_printGlyph (h : glyph.Drawable fb) (hmode : PixelMode fb)
    (hrun : printGlyph fb glyph mem = some mem') (hpx : px < fb.width) (hpy : py < fb.height) :
    readPixel fb mem' px py = (glyph.leaves fb mem px py).getD (readPixel fb mem px py) := by
  have hscanline := hmode.scanline
  obtain ⟨mem'', hrun', hpixels⟩ := h.onScreen.printGlyph_spec hmode h.bitmap_apart h.fgColor
    h.bgColor fun y hy => h.onScreen.rowDefined_of_printGlyph hrun h.width hy
  rw [hrun] at hrun'
  cases hrun'
  rw [hmode.readPixel_eq mem' (by omega) hpy, hmode.readPixel_eq mem (by omega) hpy, hpixels]
  unfold Glyph.leaves
  by_cases hcell : glyph.InCell px py
  · obtain ⟨⟨hleft, hright⟩, htop, hbottom⟩ := hcell
    rw [if_pos ⟨⟨hleft, hright⟩, htop, hbottom⟩, Option.getD_some]
    have hdrawn : drawn fb glyph mem (fb.pixelIndex (px - glyph.xOff + glyph.xOff)
        (py - glyph.yOff + glyph.yOff)) = glyphColor glyph mem (px - glyph.xOff) (py - glyph.yOff) :=
      h.onScreen.drawn_cell hmode (by omega) (by omega)
    rwa [Nat.sub_add_cancel hleft, Nat.sub_add_cancel htop] at hdrawn
  · rw [if_neg hcell]
    by_cases hfollows : ∃ y < glyph.height, glyph.Follows fb y px py
    · rw [if_pos hfollows, Option.getD_some]
      obtain ⟨y, hy, hy'⟩ := hfollows
      exact h.onScreen.drawn_follows hmode h.width hy hpx hy' hcell
    · rw [if_neg hfollows, Option.getD_none]
      exact h.onScreen.drawn_outside hmode hpx hcell fun y hy hc => hfollows ⟨y, hy, hc⟩

theorem Glyph.leaves_congr
    (h : ∀ y < glyph.height, mem'.byte ((glyph.bitmap + y) % 2 ^ 64) =
      mem.byte ((glyph.bitmap + y) % 2 ^ 64)) :
    glyph.leaves fb mem' px py = glyph.leaves fb mem px py := by
  unfold Glyph.leaves
  by_cases hcell : glyph.InCell px py
  · rw [if_pos hcell, if_pos hcell, glyphColor_congr (h _ ?_)]
    obtain ⟨-, htop, hbottom⟩ := hcell
    omega
  · rw [if_neg hcell, if_neg hcell]

theorem drawGlyphs_cons : drawGlyphs fb mem (glyph :: glyphs) =
    (printGlyph fb glyph mem).bind fun mem => drawGlyphs fb mem glyphs := rfl

theorem drawGlyphs_append (glyphs' : List Glyph) : drawGlyphs fb mem (glyphs ++ glyphs') =
    (drawGlyphs fb mem glyphs).bind fun mem => drawGlyphs fb mem glyphs' := List.foldlM_append

/-- Glyphs drawn one after the other leave a byte that each of them leaves. -/
theorem drawGlyphs_byte
    (h : ∀ glyph ∈ glyphs, ∀ mem mem', printGlyph fb glyph mem = some mem' → mem'.byte b = mem.byte b)
    (hrun : drawGlyphs fb mem glyphs = some mem') : mem'.byte b = mem.byte b := by
  induction glyphs generalizing mem with
  | nil =>
      cases hrun
      rfl
  | cons glyph glyphs ih =>
      rw [drawGlyphs_cons, Option.bind_eq_some_iff] at hrun
      obtain ⟨next, hglyph, hrest⟩ := hrun
      rw [ih (fun g hg => h g (List.mem_cons_of_mem glyph hg)) hrest]
      exact h glyph List.mem_cons_self mem next hglyph

/-- Each pixel shows what the last one that reached it left. -/
theorem showsLast_of_drawGlyphs (hmode : PixelMode fb) (hglyphs : ∀ glyph ∈ glyphs, glyph.Drawable fb)
    (hrun : drawGlyphs fb mem glyphs = some mem') (hpx : px < fb.width) (hpy : py < fb.height) :
    ShowsLast fb glyphs mem mem' px py := by
  induction glyphs generalizing mem with
  | nil =>
      cases hrun
      refine ⟨?_, fun _ => rfl⟩
      intro before glyph after color hsplit
      simp at hsplit
  | cons first glyphs ih =>
      have hfirst := hglyphs first List.mem_cons_self
      have htail : ∀ glyph ∈ glyphs, glyph.Drawable fb :=
        fun glyph hglyph => hglyphs glyph (List.mem_cons_of_mem first hglyph)
      rw [drawGlyphs_cons, Option.bind_eq_some_iff] at hrun
      obtain ⟨next, hglyph, hrest⟩ := hrun
      have hpixel := hfirst.readPixel_printGlyph hmode hglyph hpx hpy
      have hrec := ih htail hrest
      -- the bitmaps are what they were
      have hleaves : ∀ glyph ∈ glyphs, glyph.leaves fb next px py = glyph.leaves fb mem px py := by
        intro glyph hmem
        apply Glyph.leaves_congr
        exact fun y hy => hfirst.printGlyph_outside hmode hglyph ((htail glyph hmem).apart y hy)
      constructor
      · intro before glyph after color hsplit hcolor hafter
        cases before with
        | nil =>
            obtain ⟨rfl, rfl⟩ : first = glyph ∧ glyphs = after := by simpa using hsplit
            rw [hrec.untouched fun later hlater => by rw [hleaves later hlater, hafter later hlater],
              hpixel, hcolor, Option.getD_some]
        | cons g before =>
            obtain ⟨rfl, hsplit'⟩ : first = g ∧ glyphs = before ++ glyph :: after := by
              simpa using hsplit
            have hmem : glyph ∈ glyphs := by simp [hsplit']
            have hmem' : ∀ later ∈ after, later ∈ glyphs := by
              intro later hlater
              simp [hsplit', hlater]
            apply hrec.last before glyph after color hsplit'
            · rw [hleaves glyph hmem, hcolor]
            · intro later hlater
              rw [hleaves later (hmem' later hlater), hafter later hlater]
      · intro hnone
        rw [hrec.untouched fun glyph hmem => by
            rw [hleaves glyph hmem, hnone glyph (List.mem_cons_of_mem first hmem)],
          hpixel, hnone first List.mem_cons_self, Option.getD_none]

end Glyphs

namespace ConsoleCursor

def setFgColor (self : ConsoleCursor) (color : Nat) : ConsoleCursor := { self with fgColor := color }

def setBgColor (self : ConsoleCursor) (color : Nat) : ConsoleCursor := { self with bgColor := color }

/-- The cursor after a character. -/
def afterChar (self : ConsoleCursor) (chr : UInt16) : ConsoleCursor :=
  if chr.toNat = '\n'.toNat then self.newLine
  else if chr.toNat = '\t'.toNat then self.next.next.next
  else self.next

def afterChars (self : ConsoleCursor) (chars : List UInt16) : ConsoleCursor :=
  chars.foldl afterChar self

end ConsoleCursor

/-- The glyphs of a text. -/
def textGlyphs (font : ConsoleFont) : ConsoleCursor → List UInt16 → List Glyph
  | _, [] => []
  | cursor, chr :: chars =>
    (if Drawn chr then [glyphAt font cursor chr] else []) ++ textGlyphs font (cursor.afterChar chr) chars

/-- A call that draws, moves the cursor or sets a colour. -/
inductive DisplayCall
  | console (op : ConsoleOp)
  | setFgColor (color : Nat)
  | setBgColor (color : Nat)

namespace DisplayCall

def run (fb : GraphicsFramebuffer) (font : ConsoleFont) (s : ConsoleState) :
    DisplayCall → Option ConsoleState
  | console op => op.run fb font s
  | setFgColor color => some { s with cursor := s.cursor.setFgColor color }
  | setBgColor color => some { s with cursor := s.cursor.setBgColor color }

/-- The characters a call prints, from the cursor it prints them from. -/
def text (cursor : ConsoleCursor) : DisplayCall → ConsoleCursor × List UInt16
  | console .next => (cursor.next, [])
  | console .back => (cursor.back, [])
  | console .newLine => (cursor.newLine, [])
  | console .reset => (cursor.reset, [])
  | console (.gotoxy x y) => (cursor.gotoxy x y, [])
  | console (.printChar chr) => (cursor, [chr])
  | console .clearScreen =>
    (cursor.reset, List.replicate (cursor.maxLines * cursor.maxColumns) blankChar)
  | setFgColor color => (cursor.setFgColor color, [])
  | setBgColor color => (cursor.setBgColor color, [])

/-- The cursor after a call. -/
def cursorAfter (cursor : ConsoleCursor) (call : DisplayCall) : ConsoleCursor :=
  match call with
  | console .clearScreen => ((call.text cursor).1.afterChars (call.text cursor).2).reset
  | _ => (call.text cursor).1.afterChars (call.text cursor).2

end DisplayCall

def runDisplay (fb : GraphicsFramebuffer) (font : ConsoleFont) (s : ConsoleState)
    (calls : List DisplayCall) : Option ConsoleState :=
  calls.foldlM (fun s call => call.run fb font s) s

/-- The glyphs of a sequence of calls. -/
def displayGlyphs (font : ConsoleFont) : ConsoleCursor → List DisplayCall → List Glyph
  | _, [] => []
  | cursor, call :: calls =>
    textGlyphs font (call.text cursor).1 (call.text cursor).2 ++
      displayGlyphs font (call.cursorAfter cursor) calls

section Calls
variable {fb : GraphicsFramebuffer} {font : ConsoleFont} {s s' : ConsoleState} {chr : UInt16}
  {chars : List UInt16} {call : DisplayCall} {calls : List DisplayCall} {px py : Nat}

/-- A character draws its glyph, if it has one, and moves the cursor. -/
theorem drawGlyphs_of_printChar (hrun : printChar fb font s chr = some s') :
    drawGlyphs fb s.mem (if Drawn chr then [glyphAt font s.cursor chr] else []) = some s'.mem ∧
      s'.cursor = s.cursor.afterChar chr := by
  by_cases hchr : Drawn chr
  · rw [printChar_of_drawn hchr] at hrun
    obtain ⟨mem, hglyph, rfl⟩ := Option.map_eq_some_iff.mp hrun
    refine ⟨?_, ?_⟩
    · rw [if_pos hchr, drawGlyphs_cons, hglyph]
      rfl
    · rw [ConsoleCursor.afterChar, if_neg hchr.1, if_neg hchr.2]
  · rw [if_neg hchr]
    unfold printChar at hrun
    unfold ConsoleCursor.afterChar
    split_ifs at hrun ⊢ with hline htab
    · cases hrun
      exact ⟨rfl, rfl⟩
    · cases hrun
      exact ⟨rfl, rfl⟩
    · exact absurd ⟨hline, htab⟩ hchr

theorem drawGlyphs_of_printChars (hrun : printChars fb font s chars = some s') :
    drawGlyphs fb s.mem (textGlyphs font s.cursor chars) = some s'.mem ∧
      s'.cursor = s.cursor.afterChars chars := by
  induction chars generalizing s with
  | nil =>
      cases hrun
      exact ⟨rfl, rfl⟩
  | cons chr chars ih =>
      rw [printChars_cons, Option.bind_eq_some_iff] at hrun
      obtain ⟨next, hchar, hrest⟩ := hrun
      obtain ⟨hglyph, hcursor⟩ := drawGlyphs_of_printChar hchar
      obtain ⟨hglyphs, hend⟩ := ih hrest
      rw [hcursor] at hglyphs hend
      refine ⟨?_, hend⟩
      rw [textGlyphs, drawGlyphs_append, hglyph, Option.bind_some, hglyphs]

/-- A call draws the glyphs of its text. -/
theorem DisplayCall.drawGlyphs_of_run (hrun : call.run fb font s = some s') :
    drawGlyphs fb s.mem (textGlyphs font (call.text s.cursor).1 (call.text s.cursor).2) =
        some s'.mem ∧
      s'.cursor = call.cursorAfter s.cursor := by
  cases call with
  | setFgColor color =>
      cases hrun
      exact ⟨rfl, rfl⟩
  | setBgColor color =>
      cases hrun
      exact ⟨rfl, rfl⟩
  | console op =>
      cases op with
      | printChar chr =>
          have hchars : printChars fb font s [chr] = some s' := by
            have hchar : printChar fb font s chr = some s' := hrun
            rw [printChars_cons, hchar]
            rfl
          exact drawGlyphs_of_printChars hchars
      | clearScreen =>
          obtain ⟨-, t, hchars, rfl⟩ := clearScreen_eq_some_iff.mp hrun
          obtain ⟨hglyphs, hcursor⟩ := drawGlyphs_of_printChars hchars
          refine ⟨hglyphs, ?_⟩
          rw [hcursor]
          rfl
      | _ =>
          cases hrun
          exact ⟨rfl, rfl⟩

theorem drawGlyphs_of_runDisplay (hrun : runDisplay fb font s calls = some s') :
    drawGlyphs fb s.mem (displayGlyphs font s.cursor calls) = some s'.mem := by
  induction calls generalizing s with
  | nil =>
      cases hrun
      rfl
  | cons call calls ih =>
      have hrun' : (call.run fb font s).bind (fun s => runDisplay fb font s calls) = some s' := hrun
      rw [Option.bind_eq_some_iff] at hrun'
      obtain ⟨next, hcall, hrest⟩ := hrun'
      obtain ⟨hglyphs, hcursor⟩ := DisplayCall.drawGlyphs_of_run hcall
      rw [displayGlyphs, drawGlyphs_append, hglyphs, Option.bind_some, ← hcursor]
      exact ih hrest

/-- Whatever the calls, as long as they draw on the screen: each of its pixels shows what the last glyph
that reached it left there, and no byte has changed but the framebuffer's and the four behind them. -/
theorem display_shows_last_glyph (hmode : PixelMode fb)
    (hglyphs : ∀ glyph ∈ displayGlyphs font s.cursor calls, glyph.Drawable fb)
    (hrun : runDisplay fb font s calls = some s') :
    (∀ px < fb.width, ∀ py < fb.height,
        ShowsLast fb (displayGlyphs font s.cursor calls) s.mem s'.mem px py) ∧
      ∀ b ∉ reachedBytes fb, s'.mem.byte b = s.mem.byte b := by
  have hdraw := drawGlyphs_of_runDisplay hrun
  constructor
  · exact fun px hpx py hpy => showsLast_of_drawGlyphs hmode hglyphs hdraw hpx hpy
  · intro b hb
    apply drawGlyphs_byte _ hdraw
    exact fun glyph hglyph mem mem' hrun => (hglyphs glyph hglyph).printGlyph_outside hmode hrun hb

end Calls

/-- A character on a blue background, and another one in its place. -/
def overwrite : List DisplayCall :=
  [.setBgColor 0xff, .console (.gotoxy 3 2), .console (.printChar 0x41), .console .back,
    .console (.printChar 0x42)]

theorem display_shows_last_glyph_overwrite :
    ∃ s', runDisplay smallScreen smallFont smallConsole overwrite = some s' ∧
      (∀ px < smallScreen.width, ∀ py < smallScreen.height, ShowsLast smallScreen
        (displayGlyphs smallFont smallConsole.cursor overwrite) smallConsole.mem s'.mem px py) ∧
      ∀ b ∉ reachedBytes smallScreen, s'.mem.byte b = smallConsole.mem.byte b := by
  obtain ⟨s', hrun⟩ : ∃ s', runDisplay smallScreen smallFont smallConsole overwrite = some s' :=
    Option.isSome_iff_exists.mp (by decide)
  refine ⟨s', hrun, display_shows_last_glyph pixelMode_small ?_ hrun⟩
  have hcell (chr : UInt16) (hchr : chr.toNat < 256) : Glyph.Drawable smallScreen
      { bitmap := (0x10004 + chr.toNat * 16) % 2 ^ 64, xOff := 24, yOff := 32, height := 16, width := 8,
        fgColor := 0xffffff, bgColor := 0xff } := by
    refine ⟨⟨show 24 + 8 ≤ 800 by decide, show 32 + 16 ≤ 600 by decide, by decide, by decide⟩,
      show 0 < 8 by decide, ?_, show 0xffffff < 2 ^ 32 by decide, show 0xff < 2 ^ 32 by decide⟩
    intro y hy hmem
    have hlow : 0xe0000000 ≤ ((0x10004 + chr.toNat * 16) % 2 ^ 64 + y) % 2 ^ 64 := hmem.1
    have hy' : y < 16 := hy
    omega
  intro glyph hglyph
  obtain rfl | hglyph := List.mem_cons.mp hglyph
  · exact hcell 0x41 (by decide)
  · obtain rfl := List.mem_singleton.mp hglyph
    exact hcell 0x42 (by decide)

end MyOSKernel
