import MyOSKernel.Console
import MyOSKernel.Printf

/-! The bytes of the font that `Console__print_str` reads. A character is a signed `char` and reaches
the glyph's number through `uint16_t`, so the bytes from 0x80 on name glyphs far behind the 256 of the
font. -/

namespace MyOSKernel

/-- `glyphColor`, recording the byte of the bitmap it reads. -/
def glyphColorTraced (glyph : Glyph) (s : TracedMemory) (x y : Nat) : Nat × TracedMemory :=
  let row := s.load ((glyph.bitmap + y) % 2 ^ 64)
  (if row.1.toNat &&& ((1 <<< 7) >>> x) > 0 then glyph.fgColor else glyph.bgColor, row.2)

/-- A round of the loops of `printGlyph`. -/
def drawPixelTraced (fb : GraphicsFramebuffer) (glyph : Glyph) (s : TracedMemory) (x y : Nat) :
    Option TracedMemory :=
  let color := glyphColorTraced glyph s x y
  (setPixel fb color.2.mem ((x + glyph.xOff) % 2 ^ 16) ((y + glyph.yOff) % 2 ^ 16) color.1).map
    fun mem => { color.2 with mem := mem }

/-- `printGlyph`, recording its reads. -/
def printGlyphTraced (fb : GraphicsFramebuffer) (glyph : Glyph) (s : TracedMemory) :
    Option TracedMemory :=
  (List.range glyph.height).foldlM (fun s y =>
    (List.range glyph.width).foldlM (fun s x => drawPixelTraced fb glyph s x y) s) s

/-- The console, with the bytes of bitmaps read so far and the bitmaps drawn, the latest first. -/
structure TracedConsole where
  console : ConsoleState
  reads : List Nat
  bitmaps : List Nat

/-- `printChar`, recording the bitmap it draws and its reads. -/
def printCharTraced (fb : GraphicsFramebuffer) (font : ConsoleFont) (t : TracedConsole)
    (chr : UInt16) : Option TracedConsole :=
  if Drawn chr then
    (printGlyphTraced fb (glyphAt font t.console.cursor chr) ⟨t.console.mem, t.reads⟩).map fun s =>
      { console :=
          { cursor := t.console.cursor.next
            mem := s.mem
            cells := (t.console.cursor.line, t.console.cursor.column) :: t.console.cells }
        reads := s.reads
        bitmaps := (glyphAt font t.console.cursor chr).bitmap :: t.bitmaps }
  else (printChar fb font t.console chr).map fun console => { t with console := console }

/-- The argument of `Console__print_char` for a character of a string: a `char` is signed. -/
def charArgument (c : UInt8) : UInt16 := c.toInt8.toInt16.toUInt16

/-- `Console__print_str`, of a string that lies apart from what is drawn on. -/
def consolePrintStr (fb : GraphicsFramebuffer) (font : ConsoleFont) (t : TracedConsole)
    (str : Nat → UInt8) : Option TracedConsole :=
  (printStr str).bind fun chars =>
    (chars.map charArgument).foldlM (printCharTraced fb font) t

/-- A loop on states with a trace, seen without it. -/
theorem foldlM_erase {α σ τ : Type} {f : σ → α → Option σ} {g : τ → α → Option τ} {erase : σ → τ}
    {l : List α} (h : ∀ s a, (f s a).map erase = g (erase s) a) (s : σ) :
    (l.foldlM f s).map erase = l.foldlM g (erase s) := by
  induction l generalizing s with
  | nil => rfl
  | cons a l ih =>
      rw [List.foldlM_cons, List.foldlM_cons, ← h]
      cases f s a with
      | none => rfl
      | some s' => exact ih s'

section Erase
variable {fb : GraphicsFramebuffer} {font : ConsoleFont} {glyph : Glyph}

theorem printGlyphTraced_erase (s : TracedMemory) :
    (printGlyphTraced fb glyph s).map (·.mem) = printGlyph fb glyph s.mem := by
  apply foldlM_erase
  intro s y
  apply foldlM_erase
  intro s x
  show ((setPixel fb s.mem _ _ (glyphColor glyph s.mem x y)).map _).map _ = _
  rw [Option.map_map]
  exact Option.map_id'

theorem printCharTraced_erase (t : TracedConsole) (chr : UInt16) :
    (printCharTraced fb font t chr).map (·.console) = printChar fb font t.console chr := by
  unfold printCharTraced
  by_cases hchr : Drawn chr
  · rw [if_pos hchr, printChar_of_drawn hchr, Option.map_map,
      ← printGlyphTraced_erase ⟨t.console.mem, t.reads⟩, Option.map_map]
    rfl
  · rw [if_neg hchr, Option.map_map]
    exact Option.map_id'

/-- Printing a string prints its characters. -/
theorem consolePrintStr_erase (t : TracedConsole) (str : CString) :
    (consolePrintStr fb font t str.byte).map (·.console) =
      printChars fb font t.console (str.chars.map charArgument) := by
  rw [consolePrintStr, str.printStr_byte, Option.bind_some]
  exact foldlM_erase printCharTraced_erase t

end Erase

section Reads
variable {fb : GraphicsFramebuffer} {font : ConsoleFont} {glyph : Glyph}

/-- A loop whose rounds read from `region` only reads from there. -/
theorem reads_foldlM {α : Type} {f : TracedMemory → α → Option TracedMemory} {region : Set Nat}
    {l : List α} {s s' : TracedMemory}
    (h : ∀ s s', ∀ a ∈ l, f s a = some s' → ∀ b ∈ s'.reads, b ∈ region ∨ b ∈ s.reads)
    (hrun : l.foldlM f s = some s') : ∀ b ∈ s'.reads, b ∈ region ∨ b ∈ s.reads := by
  induction l generalizing s with
  | nil =>
      cases hrun
      exact fun b hb => Or.inr hb
  | cons a l ih =>
      rw [List.foldlM_cons] at hrun
      obtain ⟨t, hfirst, hrest⟩ := Option.bind_eq_some_iff.mp hrun
      intro b hb
      obtain hregion | hold :=
        ih (fun s s' a' ha' => h s s' a' (List.mem_cons_of_mem a ha')) hrest b hb
      · exact Or.inl hregion
      · exact h s t a List.mem_cons_self hfirst b hold

/-- The rows of a bitmap. -/
def Glyph.rows (glyph : Glyph) : Set Nat :=
  {a | ∃ y < glyph.height, a = (glyph.bitmap + y) % 2 ^ 64}

/-- A glyph reads the rows of its bitmap. -/
theorem reads_printGlyphTraced {s s' : TracedMemory} (hrun : printGlyphTraced fb glyph s = some s') :
    ∀ b ∈ s'.reads, b ∈ glyph.rows ∨ b ∈ s.reads := by
  apply reads_foldlM _ hrun
  intro s s' y hy
  apply reads_foldlM
  intro s s' x _ hpixel b hb
  obtain ⟨mem, -, rfl⟩ := Option.map_eq_some_iff.mp hpixel
  obtain heq | hold := List.mem_cons.mp hb
  · exact Or.inl ⟨y, List.mem_range.mp hy, heq⟩
  · exact Or.inr hold

end Reads

/-- A byte of a string that is drawn. -/
def DrawnByte (c : UInt8) : Prop := c.toNat ≠ '\n'.toNat ∧ c.toNat ≠ '\t'.toNat

instance (c : UInt8) : Decidable (DrawnByte c) := inferInstanceAs (Decidable (_ ∧ _))

/-- A font of 256 glyphs of `charsize` rows, one byte a row. -/
structure PsfFont (font : ConsoleFont) : Prop where
  height : font.glyphHeight = font.charsize
  charsize_lt : font.charsize < 2 ^ 8
  glyphBuffer_lt : font.glyphBuffer < 2 ^ 64
  inMemory : font.glyphBuffer + 256 * font.charsize ≤ 2 ^ 64

/-- Where the bitmap of a character is taken from. -/
def bitmapOf (font : ConsoleFont) (c : UInt8) : Nat :=
  (font.glyphBuffer + (charArgument c).toNat * font.charsize) % 2 ^ 64

/-- A string is drawn from the font: only its bytes are read, and each byte drawn has the glyph of
its number. -/
structure DrawsFromFont (font : ConsoleFont) (chars : List UInt8) (t : TracedConsole) : Prop where
  reads : ∀ a ∈ t.reads,
    a ∈ Set.Ico font.glyphBuffer (font.glyphBuffer + 256 * font.charsize)
  bitmaps : t.bitmaps.reverse = (chars.filter DrawnByte).map fun c =>
    font.glyphBuffer + c.toNat * font.charsize

section Bytes
variable {c : UInt8}

/-- The sign of a `char` is extended. -/
theorem charArgument_toNat (c : UInt8) : (charArgument c).toNat =
    if c.toNat < 0x80 then c.toNat else 0xff00 + c.toNat := by
  have hall : ∀ n : Fin 256, (charArgument (UInt8.ofNat n)).toNat =
      if (n : Nat) < 0x80 then (n : Nat) else 0xff00 + n := by decide +kernel
  have hc := hall ⟨c.toNat, c.toNat_lt⟩
  rwa [UInt8.ofNat_toNat] at hc

theorem drawn_charArgument (c : UInt8) : Drawn (charArgument c) ↔ DrawnByte c := by
  have hnewLine : '\n'.toNat = 10 := rfl
  have htab : '\t'.toNat = 9 := rfl
  unfold Drawn DrawnByte
  rw [charArgument_toNat, hnewLine, htab]
  split_ifs
  · exact Iff.rfl
  · omega

end Bytes

section String
variable {fb : GraphicsFramebuffer} {font : ConsoleFont} {t t' : TracedConsole} {c : UInt8}
  {chars : List UInt8}

theorem filter_drawnByte (hdrawn : DrawnByte c) : [c].filter DrawnByte = [c] := by simp [hdrawn]

theorem filter_not_drawnByte (hdrawn : ¬DrawnByte c) : [c].filter DrawnByte = [] := by simp [hdrawn]

/-- One character. -/
theorem printCharTraced_spec (hrun : printCharTraced fb font t (charArgument c) = some t') :
    t'.bitmaps = ([c].filter DrawnByte).map (bitmapOf font) ++ t.bitmaps ∧
      ∀ a ∈ t'.reads, (DrawnByte c ∧ ∃ y < font.glyphHeight, a = (bitmapOf font c + y) % 2 ^ 64) ∨
        a ∈ t.reads := by
  unfold printCharTraced at hrun
  by_cases hdrawn : DrawnByte c
  · rw [if_pos ((drawn_charArgument c).mpr hdrawn)] at hrun
    obtain ⟨s, hglyph, rfl⟩ := Option.map_eq_some_iff.mp hrun
    rw [filter_drawnByte hdrawn]
    refine ⟨rfl, ?_⟩
    intro a ha
    obtain hrow | hold := reads_printGlyphTraced hglyph a ha
    · exact Or.inl ⟨hdrawn, hrow⟩
    · exact Or.inr hold
  · rw [if_neg fun h => hdrawn ((drawn_charArgument c).mp h)] at hrun
    obtain ⟨console, -, rfl⟩ := Option.map_eq_some_iff.mp hrun
    rw [filter_not_drawnByte hdrawn]
    exact ⟨rfl, fun a ha => Or.inr ha⟩

/-- The characters of a string, one after the other. -/
theorem foldlM_printCharTraced_spec
    (hrun : (chars.map charArgument).foldlM (printCharTraced fb font) t = some t') :
    t'.bitmaps.reverse = t.bitmaps.reverse ++ (chars.filter DrawnByte).map (bitmapOf font) ∧
      ∀ a ∈ t'.reads, (∃ c ∈ chars, DrawnByte c ∧
        ∃ y < font.glyphHeight, a = (bitmapOf font c + y) % 2 ^ 64) ∨ a ∈ t.reads := by
  induction chars generalizing t with
  | nil =>
      cases hrun
      exact ⟨(List.append_nil _).symm, fun a ha => Or.inr ha⟩
  | cons c chars ih =>
      rw [List.map_cons, List.foldlM_cons] at hrun
      obtain ⟨next, hchar, hrest⟩ := Option.bind_eq_some_iff.mp hrun
      obtain ⟨hbitmaps, hreads⟩ := printCharTraced_spec hchar
      obtain ⟨hbitmaps', hreads'⟩ := ih hrest
      constructor
      · have hone : (([c].filter DrawnByte).map (bitmapOf font)).reverse =
            ([c].filter DrawnByte).map (bitmapOf font) := by
          by_cases hdrawn : DrawnByte c
          · rw [filter_drawnByte hdrawn]
            rfl
          · rw [filter_not_drawnByte hdrawn]
            rfl
        rw [hbitmaps', hbitmaps, List.reverse_append, hone, List.append_assoc, ← List.map_append,
          ← List.filter_append, List.singleton_append]
      · intro a ha
        obtain ⟨c', hc', hread⟩ | hold := hreads' a ha
        · exact Or.inl ⟨c', List.mem_cons_of_mem c hc', hread⟩
        · obtain hread | hold := hreads a hold
          · exact Or.inl ⟨c, List.mem_cons_self, hread⟩
          · exact Or.inr hold

/-- The glyphs a string is drawn with, and the bytes read for them. -/
theorem consolePrintStr_spec {str : CString} (hreads : t.reads = []) (hbitmaps : t.bitmaps = [])
    (hrun : consolePrintStr fb font t str.byte = some t') :
    t'.bitmaps.reverse = (str.chars.filter DrawnByte).map (bitmapOf font) ∧
      ∀ a ∈ t'.reads, ∃ c ∈ str.chars, DrawnByte c ∧
        ∃ y < font.glyphHeight, a = (bitmapOf font c + y) % 2 ^ 64 := by
  rw [consolePrintStr, str.printStr_byte, Option.bind_some] at hrun
  obtain ⟨hdrawn, hread⟩ := foldlM_printCharTraced_spec hrun
  rw [hbitmaps, List.reverse_nil, List.nil_append] at hdrawn
  refine ⟨hdrawn, ?_⟩
  intro a ha
  obtain h | hold := hread a ha
  · exact h
  · rw [hreads] at hold
    exact absurd hold List.not_mem_nil

/-- A character has the glyph of its number when it is below 0x80, or when all glyphs are empty. -/
theorem PsfFont.bitmapOf_eq_iff (h : PsfFont font) (c : UInt8) :
    bitmapOf font c = font.glyphBuffer + c.toNat * font.charsize ↔
      font.charsize = 0 ∨ c.toNat < 0x80 := by
  have hbuffer := h.glyphBuffer_lt
  have hmem := h.inMemory
  have hlt := h.charsize_lt
  have hc := c.toNat_lt
  have hrows : (c.toNat + 1) * font.charsize ≤ 256 * font.charsize :=
    Nat.mul_le_mul_right _ (by omega)
  rw [Nat.add_mul, Nat.one_mul] at hrows
  unfold bitmapOf
  rw [charArgument_toNat]
  by_cases hascii : c.toNat < 0x80
  · rw [if_pos hascii]
    refine iff_of_true (Nat.mod_eq_of_lt ?_) (Or.inr hascii)
    by_cases hempty : font.charsize = 0
    · rw [hempty]
      omega
    · omega
  · rw [if_neg hascii, Nat.add_mul]
    omega

/-- The rows of the glyph of a number are the font's. -/
theorem PsfFont.rows_mem (h : PsfFont font) (c : UInt8) {y : Nat} (hy : y < font.glyphHeight) :
    (font.glyphBuffer + c.toNat * font.charsize + y) % 2 ^ 64 ∈
      Set.Ico font.glyphBuffer (font.glyphBuffer + 256 * font.charsize) := by
  have hheight := h.height
  have hmem := h.inMemory
  have hc := c.toNat_lt
  have hrows : (c.toNat + 1) * font.charsize ≤ 256 * font.charsize :=
    Nat.mul_le_mul_right _ (by omega)
  rw [Nat.add_mul, Nat.one_mul] at hrows
  rw [Nat.mod_eq_of_lt (by omega)]
  exact ⟨by omega, by omega⟩

end String

/-- A string is drawn from the font exactly when its bytes are below 0x80, or no glyph has rows. -/
theorem text_drawn_from_font_iff {fb : GraphicsFramebuffer} {font : ConsoleFont} {str : CString}
    {t t' : TracedConsole} (hfont : PsfFont font) (hreads : t.reads = []) (hbitmaps : t.bitmaps = [])
    (hrun : consolePrintStr fb font t str.byte = some t') :
    DrawsFromFont font str.chars t' ↔ font.charsize = 0 ∨ ∀ c ∈ str.chars, c.toNat < 0x80 := by
  obtain ⟨hdrawn, hread⟩ := consolePrintStr_spec hreads hbitmaps hrun
  constructor
  · intro h
    rw [or_iff_not_imp_left]
    intro hcharsize c hc
    by_contra hhigh
    have hmem : c ∈ str.chars.filter DrawnByte := by
      rw [List.mem_filter, decide_eq_true_eq]
      exact ⟨hc, by rw [show '\n'.toNat = 10 from rfl]; omega,
        by rw [show '\t'.toNat = 9 from rfl]; omega⟩
    have hbitmap := List.map_inj_left.mp (hdrawn.symm.trans h.bitmaps) c hmem
    exact ((hfont.bitmapOf_eq_iff c).mp hbitmap).elim hcharsize hhigh
  · intro h
    have heq : ∀ c ∈ str.chars, bitmapOf font c = font.glyphBuffer + c.toNat * font.charsize := by
      intro c hc
      exact (hfont.bitmapOf_eq_iff c).mpr (h.imp id fun hall => hall c hc)
    constructor
    · intro a ha
      obtain ⟨c, hc, -, y, hy, rfl⟩ := hread a ha
      rw [heq c hc]
      exact hfont.rows_mem c hy
    · rw [hdrawn]
      exact List.map_congr_left fun c hc => heq c (List.mem_of_mem_filter hc)

theorem psfFont_small : PsfFont smallFont := by
  refine ⟨?_, ?_, ?_, ?_⟩ <;> decide

/-- A string of one character is printed at the top left. -/
theorem consolePrintStr_small (c : UInt8) (hc : c ≠ 0) :
    ∃ t', consolePrintStr smallScreen smallFont ⟨smallConsole, [], []⟩
      (CString.repeated 1 c hc (by decide)).byte = some t' := by
  have hrows : ∀ line < cursorMaxLines, RowsDefined smallScreen smallFont line := by
    have hlast : RowsDefined smallScreen smallFont (cursorMaxLines - 1) := by
      intro _ _
      decide
    exact fun line hline => hlast.of_le (Nat.le_sub_one_of_lt hline)
  have hat : smallConsole.cursor.At cursorMaxLines cursorMaxColumns 0 := ⟨rfl, rfl, rfl, rfl⟩
  obtain ⟨s', hchar⟩ : ∃ s', printChar smallScreen smallFont smallConsole (charArgument c) = some s' :=
    printChar_isSome screenFits_small hrows hat (by decide) (by decide) fun _ => by decide
  rw [← printCharTraced_erase ⟨smallConsole, [], []⟩] at hchar
  obtain ⟨t', hrun, -⟩ := Option.map_eq_some_iff.mp hchar
  refine ⟨t', ?_⟩
  rw [consolePrintStr, CString.printStr_byte, Option.bind_some]
  show (printCharTraced smallScreen smallFont _ (charArgument c)).bind _ = some t'
  rw [hrun]
  rfl

theorem text_drawn_from_font_iff_small :
    ∃ t', consolePrintStr smallScreen smallFont ⟨smallConsole, [], []⟩
        (CString.repeated 1 0x41 (by decide) (by decide)).byte = some t' ∧
      (DrawsFromFont smallFont [0x41] t' ↔
        smallFont.charsize = 0 ∨ ∀ c ∈ [(0x41 : UInt8)], c.toNat < 0x80) := by
  obtain ⟨t', hrun⟩ := consolePrintStr_small 0x41 (by decide)
  exact ⟨t', hrun, text_drawn_from_font_iff psfFont_small rfl rfl hrun⟩

/-- The byte 0x80 is drawn with the glyph 0xff80. -/
theorem text_leaves_font :
    PsfFont smallFont ∧ ∃ t', consolePrintStr smallScreen smallFont ⟨smallConsole, [], []⟩
        (CString.repeated 1 0x80 (by decide) (by decide)).byte = some t' ∧
      ¬DrawsFromFont smallFont [0x80] t' := by
  obtain ⟨t', hrun⟩ := consolePrintStr_small 0x80 (by decide)
  refine ⟨psfFont_small, t', hrun, ?_⟩
  intro h
  have hbitmaps := (consolePrintStr_spec rfl rfl hrun).1.symm.trans h.bitmaps
  exact absurd hbitmaps (by decide)

end MyOSKernel
