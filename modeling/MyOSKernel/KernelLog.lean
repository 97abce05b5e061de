import MyOSKernel.CpuInfo
import MyOSKernel.PrintfCalls
import Mathlib.Data.List.TakeWhile

/-! What the kernel prints, of `kutils.c`, and the log `_start` writes on the cleared screen. Each call
of the log prints one line whatever the numbers it is given, and there are fewer of them than lines on
the screen, so that the whole log can be read when the kernel has booted. A panic starts over at the
top of a blue screen. -/

namespace MyOSKernel

open X86

def kprintErr (msg : CString) : PrintfCall :=
  ⟨cstring "[!] Kernel error: %s \n", [.str msg]⟩

def kprintSucc (msg : CString) : PrintfCall :=
  ⟨cstring "[+] Kernel success: %s \n", [.str msg]⟩

def kprintInfo (msg : CString) : PrintfCall :=
  ⟨cstring "[*] Kernel info: %s \n", [.str msg]⟩

/-- `_print_cpu_err`. -/
def printCpuErr (str : CString) : PrintfCall :=
  ⟨cstring "[!] CPU error: %s \n", [.str str]⟩

/-- What `check_cpu_state` prints about a status. -/
def printCpuState : CpuStatus → List PrintfCall
  | .noLongMode => [printCpuErr (cstring "no long mode detected")]
  | .noFpu => [printCpuErr (cstring "no FPU detected")]
  | .noApic => [printCpuErr (cstring "no APIC detected")]
  | .noMsr => [printCpuErr (cstring "no MSRs detected")]
  | .success => []

/-- `frames * FRAME_SZ / 1024 / 1024`. -/
def framesMB (frames : Nat) : UInt64 := UInt64.ofNat (frames * pageSz % 2 ^ 64 / 1024 / 1024)

def kprintPmemInfo (pm : PhysicalMemory) : List PrintfCall :=
  [kprintInfo (cstring "physical memory info:"),
    ⟨cstring "\t free: frames = %d, memory = %dMB \n",
      [.num (UInt64.ofNat pm.freeFrames), .num (framesMB pm.freeFrames)]⟩,
    ⟨cstring "\t locked: frames = %d, memory = %dMB \n",
      [.num (UInt64.ofNat pm.lockedFrames), .num (framesMB pm.lockedFrames)]⟩,
    ⟨cstring "\t reserved: frames = %d, memory = %dMB \n",
      [.num (UInt64.ofNat pm.reservedFrames), .num (framesMB pm.reservedFrames)]⟩,
    ⟨cstring "\t size of array: %dMB \n",
      [.num (UInt64.ofNat (PhysicalMemory.getFramesArraySz pm / 1024 / 1024))]⟩]

/-- The string in an array of characters. -/
def arrayString {n : Nat} (v : Vector (BitVec 8) n) (hn : n < 2 ^ 64) : CString where
  chars := (v.toList.map UInt8.ofBitVec).takeWhile (· ≠ 0)
  nonzero := fun c hc => by simpa using List.mem_takeWhile_imp hc
  fits := (List.takeWhile_sublist _).length_le.trans_lt (by simpa using hn)

/-- An argument of a smaller unsigned type. -/
def numArg {n : Nat} (v : BitVec n) : PrintfArg := .num (UInt64.ofNat v.toNat)

def kprintCpuInfo (cpu : Cpu) : List PrintfCall :=
  [kprintInfo (cstring "CPU info:"),
    ⟨cstring "\t - manufacturer:   %s \n",
      [.str (arrayString cpu.manufacturer (by decide))]⟩,
    ⟨cstring "\t - stepping id:    %d \n", [numArg cpu.steppingId]⟩,
    ⟨cstring "\t - family id:      %d \n", [numArg cpu.familyId]⟩,
    ⟨cstring "\t - model id:       %d \n", [numArg cpu.modelId]⟩,
    ⟨cstring "\t - type:           %d \n", [numArg cpu.type]⟩,
    ⟨cstring "\t - brand:          %s \n",
      [.str (arrayString cpu.brand (by decide))]⟩,
    ⟨cstring "\t - logical cores:  %d \n", [numArg cpu.logicalCores]⟩,
    ⟨cstring "\t - physical cores: %d \n", [numArg cpu.physicalCores]⟩,
    ⟨cstring "\t - hyperthreading: %d \n", [numArg cpu.hyperthreading]⟩]

/-- What `_start` has to print: the answers of `cpuid`, the allocator, and what it reads from tables
and devices. -/
structure BootData where
  answer : BitVec 32 → CpuidResult
  pmem : PhysicalMemory
  acpiVersion : UInt8
  localId : UInt64
  apicVersion : UInt64
  noTimers : UInt64
  counterEnabled : UInt64
  counter : UInt64
  counter' : UInt64
  compar : UInt64

/-- The case distinction on `get_acpi_version()`. -/
def printAcpiVersion (version : UInt8) : PrintfCall :=
  if version = 0 then kprintSucc (cstring "ACPI 1.0 detected")
  else if version = 2 then kprintSucc (cstring "ACPI 2.0 detected")
  else kprintErr (cstring "unknown version of ACPI detected")

/-- The calls `_start` makes after it has cleared the screen, when nothing panics. -/
def startLog (bd : BootData) : List PrintfCall :=
  printCpuState (checkCpuState bd.answer) ++
  [if checkCpuState bd.answer ≠ .success then
      kprintErr (cstring "CPU state error")
    else kprintSucc (cstring "CPU state correct")] ++
  kprintCpuInfo (cpuInit bd.answer) ++
  [kprintSucc (cstring "Physical memory initalization success")] ++
  kprintPmemInfo bd.pmem ++
  [kprintSucc (cstring "GDT initalization success"),
    kprintSucc (cstring "HPET initialization success"),
    kprintSucc (cstring "4-level paging initialization success"),
    kprintSucc (cstring "IDT initialization success"),
    printAcpiVersion bd.acpiVersion,
    ⟨cstring "LAPIC ID     : %d \n", [.num bd.localId]⟩,
    ⟨cstring "APIC version : %d \n", [.num bd.apicVersion]⟩,
    ⟨cstring "HPET timers  : %d \n", [.num bd.noTimers]⟩,
    ⟨cstring "HPET enabled : %d \n", [.num bd.counterEnabled]⟩,
    ⟨cstring "HPET counter : %d \n", [.num bd.counter]⟩,
    ⟨cstring "HPET counter : %d \n", [.num bd.counter']⟩,
    ⟨cstring "Comparator: %d \n", [.num bd.compar]⟩]

def colorBlue : Nat := 0xff

def colorWhite : Nat := 0xffffff

/-- `kpanic`. -/
def kpanic (fb : GraphicsFramebuffer) (font : ConsoleFont) (buf tempBuf : Nat → Nat → UInt8)
    (s : ConsoleState) (msg : CString) : Option ConsoleState :=
  (setAllPixels fb s.mem colorBlue).bind fun mem =>
    printfs fb font buf tempBuf 0
      { s with
        cursor := ((s.cursor.gotoxy 0 0).setBgColor colorBlue).setFgColor colorWhite
        mem := mem }
      [⟨cstring "Kernel panic!!! \n", []⟩,
        ⟨cstring "Error: %s", [.str msg]⟩]

/-- The call prints one line of the screen. -/
def PrintsLine (call : PrintfCall) : Prop :=
  ∃ out, call.Prints out ∧ IsLine cursorMaxColumns out

/-- A printable byte of ASCII. -/
def Printable (c : UInt8) : Prop := 0x20 ≤ c.toNat ∧ c.toNat < 0x80

instance (c : UInt8) : Decidable (Printable c) := inferInstanceAs (Decidable (_ ∧ _))

section Log
variable {msg : CString} {calls : List PrintfCall} {n : Nat}

theorem Printable.lineByte {c : UInt8} (h : Printable c) : LineByte c ∧ byteWidth c = 1 := by
  have hlow := h.1
  refine ⟨⟨?_, h.2⟩, if_neg ?_⟩
  · rintro rfl
    exact absurd hlow (by decide)
  · rintro rfl
    exact absurd hlow (by decide)

theorem textWidth_of_printable {l : List UInt8} (h : ∀ c ∈ l, Printable c) :
    textWidth l = l.length := by
  rw [textWidth, List.map_congr_left fun c hc => (h c hc).lineByte.2, List.map_const',
    List.sum_replicate, smul_eq_mul, Nat.mul_one]

theorem arrayString_shape (v : Vector (BitVec 8) n) (hn : n < 2 ^ 64)
    (h : ∀ c ∈ (arrayString v hn).chars, Printable c) :
    PrintfArg.HasShape (.str (arrayString v hn)) (.str n) := by
  refine ⟨?_, fun c hc => (h c hc).lineByte.1⟩
  rw [textWidth_of_printable h]
  exact (List.takeWhile_sublist _).length_le.trans (by simp)

/-- The messages of the kernel take one line each, if they are short. -/
theorem kprint_line (hmsg : ∀ c ∈ msg.chars, LineByte c) (hwidth : textWidth msg.chars ≤ 60) :
    PrintsLine (kprintErr msg) ∧ PrintsLine (kprintSucc msg) ∧ PrintsLine (kprintInfo msg) ∧
      PrintsLine (printCpuErr msg) := by
  have hshape : List.Forall₂ PrintfArg.HasShape [.str msg] [.str 60] :=
    .cons ⟨hwidth, hmsg⟩ .nil
  unfold kprintErr kprintSucc kprintInfo printCpuErr
  refine ⟨?_, ?_, ?_, ?_⟩
  · exact lineFormat_sound hshape (by decide +kernel) (by decide)
  · exact lineFormat_sound hshape (by decide +kernel) (by decide)
  · exact lineFormat_sound hshape (by decide +kernel) (by decide)
  · exact lineFormat_sound hshape (by decide +kernel) (by decide)

/-- A format with one number that has been checked. -/
theorem number_line {str : CString} (num : UInt64)
    (hcheck : lineFormat cursorMaxColumns str.chars [.num] = true) :
    PrintsLine ⟨str, [.num num]⟩ := by
  have hshape : List.Forall₂ PrintfArg.HasShape [.num num] [.num] := .cons trivial .nil
  exact lineFormat_sound hshape hcheck (by decide)

theorem numbers_line {str : CString} (num num' : UInt64)
    (hcheck : lineFormat cursorMaxColumns str.chars [.num, .num] = true) :
    PrintsLine ⟨str, [.num num, .num num']⟩ := by
  have hshape : List.Forall₂ PrintfArg.HasShape [.num num, .num num'] [.num, .num] :=
    .cons trivial (.cons trivial .nil)
  exact lineFormat_sound hshape hcheck (by decide)

theorem kprintPmemInfo_lines (pm : PhysicalMemory) : ∀ call ∈ kprintPmemInfo pm, PrintsLine call := by
  simp only [kprintPmemInfo, List.forall_mem_cons]
  refine ⟨(kprint_line (by decide +kernel) (by decide +kernel)).2.2.1, ?_, ?_, ?_, ?_, by simp⟩
  · exact numbers_line _ _ (by decide +kernel)
  · exact numbers_line _ _ (by decide +kernel)
  · exact numbers_line _ _ (by decide +kernel)
  · exact number_line _ (by decide +kernel)

theorem kprintCpuInfo_lines (cpu : Cpu)
    (hmanufacturer : ∀ c ∈ (arrayString cpu.manufacturer (by decide)).chars, Printable c)
    (hbrand : ∀ c ∈ (arrayString cpu.brand (by decide)).chars, Printable c) :
    ∀ call ∈ kprintCpuInfo cpu, PrintsLine call := by
  simp only [kprintCpuInfo, List.forall_mem_cons]
  refine ⟨(kprint_line (by decide +kernel) (by decide +kernel)).2.2.1, ?_, ?_, ?_, ?_, ?_, ?_, ?_, ?_, ?_,
    by simp⟩
  · exact lineFormat_sound (.cons (arrayString_shape _ _ hmanufacturer) .nil) (by decide +kernel)
      (by decide)
  · exact number_line _ (by decide +kernel)
  · exact number_line _ (by decide +kernel)
  · exact number_line _ (by decide +kernel)
  · exact number_line _ (by decide +kernel)
  · exact lineFormat_sound (.cons (arrayString_shape _ _ hbrand) .nil) (by decide +kernel) (by decide)
  · exact number_line _ (by decide +kernel)
  · exact number_line _ (by decide +kernel)
  · exact number_line _ (by decide +kernel)

theorem printCpuState_lines (status : CpuStatus) :
    (printCpuState status).length ≤ 1 ∧ ∀ call ∈ printCpuState status, PrintsLine call := by
  cases status with
  | success => exact ⟨Nat.zero_le _, fun call hcall => absurd hcall List.not_mem_nil⟩
  | noLongMode =>
      refine ⟨le_rfl, fun call hcall => ?_⟩
      rw [List.mem_singleton.mp hcall]
      exact (kprint_line (by decide +kernel) (by decide +kernel)).2.2.2
  | noFpu =>
      refine ⟨le_rfl, fun call hcall => ?_⟩
      rw [List.mem_singleton.mp hcall]
      exact (kprint_line (by decide +kernel) (by decide +kernel)).2.2.2
  | noApic =>
      refine ⟨le_rfl, fun call hcall => ?_⟩
      rw [List.mem_singleton.mp hcall]
      exact (kprint_line (by decide +kernel) (by decide +kernel)).2.2.2
  | noMsr =>
      refine ⟨le_rfl, fun call hcall => ?_⟩
      rw [List.mem_singleton.mp hcall]
      exact (kprint_line (by decide +kernel) (by decide +kernel)).2.2.2

theorem printAcpiVersion_line (version : UInt8) : PrintsLine (printAcpiVersion version) := by
  unfold printAcpiVersion
  split_ifs
  · exact (kprint_line (by decide +kernel) (by decide +kernel)).2.1
  · exact (kprint_line (by decide +kernel) (by decide +kernel)).2.1
  · exact (kprint_line (by decide +kernel) (by decide +kernel)).1

/-- The names of the processor are printable. -/
structure BootData.CpuPrintable (bd : BootData) : Prop where
  manufacturer : ∀ c ∈ (arrayString (cpuInit bd.answer).manufacturer (by decide)).chars, Printable c
  brand : ∀ c ∈ (arrayString (cpuInit bd.answer).brand (by decide)).chars, Printable c

theorem startLog_length (bd : BootData) : (startLog bd).length ≤ 30 := by
  have hstate := (printCpuState_lines (checkCpuState bd.answer)).1
  simp only [startLog, kprintCpuInfo, kprintPmemInfo, List.length_append, List.length_cons,
    List.length_nil]
  omega

theorem startLog_lines {bd : BootData} (hcpu : bd.CpuPrintable) :
    ∀ call ∈ startLog bd, PrintsLine call := by
  simp only [startLog, List.forall_mem_append, List.forall_mem_cons]
  refine ⟨⟨⟨⟨⟨(printCpuState_lines _).2, ?_, by simp⟩,
    kprintCpuInfo_lines _ hcpu.manufacturer hcpu.brand⟩, ?_, by simp⟩, kprintPmemInfo_lines _⟩,
    ?_, ?_, ?_, ?_, ?_, ?_, ?_, ?_, ?_, ?_, ?_, ?_, by simp⟩
  · split_ifs
    · exact (kprint_line (by decide +kernel) (by decide +kernel)).1
    · exact (kprint_line (by decide +kernel) (by decide +kernel)).2.1
  · exact (kprint_line (by decide +kernel) (by decide +kernel)).2.1
  · exact (kprint_line (by decide +kernel) (by decide +kernel)).2.1
  · exact (kprint_line (by decide +kernel) (by decide +kernel)).2.1
  · exact (kprint_line (by decide +kernel) (by decide +kernel)).2.1
  · exact (kprint_line (by decide +kernel) (by decide +kernel)).2.1
  · exact printAcpiVersion_line _
  · exact number_line _ (by decide +kernel)
  · exact number_line _ (by decide +kernel)
  · exact number_line _ (by decide +kernel)
  · exact number_line _ (by decide +kernel)
  · exact number_line _ (by decide +kernel)
  · exact number_line _ (by decide +kernel)
  · exact number_line _ (by decide +kernel)

/-- The outputs of calls that print lines. -/
theorem exists_outs (h : ∀ call ∈ calls, PrintsLine call) :
    ∃ outs, List.Forall₂ PrintfCall.Prints calls outs ∧
      ∀ out ∈ outs, IsLine cursorMaxColumns out := by
  induction calls with
  | nil => exact ⟨[], .nil, fun out hout => absurd hout List.not_mem_nil⟩
  | cons call calls ih =>
      obtain ⟨hcall, hcalls⟩ := List.forall_mem_cons.mp h
      obtain ⟨out, hout, hline⟩ := hcall
      obtain ⟨outs, houts, hlines⟩ := ih hcalls
      exact ⟨out :: outs, .cons hout houts, List.forall_mem_cons.mpr ⟨hline, hlines⟩⟩

end Log

/-- The glyphs of ASCII lie apart from the framebuffer. -/
def AsciiApart (fb : GraphicsFramebuffer) (font : ConsoleFont) : Prop :=
  ∀ cells : List (Nat × UInt16), (∀ cell ∈ cells, cell.2.toNat < 0x80) → FontApart fb font cells

section Screen
variable {fb : GraphicsFramebuffer} {font : ConsoleFont} {s : ConsoleState} {lines columns : Nat}
  {outs : List (List UInt8)} {mem mem' : Memory} {color b : Nat}

theorem ascii_of_lines (h : ∀ out ∈ outs, IsLine columns out) :
    ∀ cell ∈ placed columns 0 (outs.flatten.map charArgument), cell.2.toNat < 0x80 := by
  intro cell hcell
  obtain ⟨before, after, hsplit, -⟩ := mem_placed_iff.mp hcell
  have hmem : cell.2 ∈ outs.flatten.map charArgument := by
    rw [hsplit]
    exact List.mem_append_right _ List.mem_cons_self
  obtain ⟨c, hc, hchr⟩ := List.mem_map.mp hmem
  obtain ⟨out, hout, hcout⟩ := List.mem_flatten.mp hc
  obtain ⟨body, rfl, hbody, -⟩ := h out hout
  have hlow : c.toNat < 0x80 := by
    obtain hc | hc := List.mem_append.mp hcout
    · exact (hbody c hc).2
    · rw [List.mem_singleton.mp hc]
      decide
  rw [← hchr, charArgument_toNat, if_pos hlow]
  exact hlow

/-- The log of the boot is on the screen when `_start` is done with it, whole and line by line: whatever
the processor, the memory and the devices, no line is longer than the screen is wide and there are
fewer of them than it has lines. The screen is one for text, with the bitmaps of ASCII apart from it. -/
theorem boot_log_shown (h : TextScreen fb font cursorMaxLines cursorMaxColumns)
    (hcursor : s.cursor.Of cursorMaxLines cursorMaxColumns) (hfg : s.cursor.fgColor < 2 ^ 32)
    (hbg : s.cursor.bgColor < 2 ^ 32) (hrows : RowsDefined fb font (cursorMaxLines - 1))
    (hapart : AsciiApart fb font) {bd : BootData} (hcpu : bd.CpuPrintable)
    (buf tempBuf : Nat → Nat → UInt8) :
    ∃ start s' outs, clearScreen fb font s = some start ∧
      printfs fb font buf tempBuf 0 start (startLog bd) = some s' ∧
      List.Forall₂ PrintfCall.Prints (startLog bd) outs ∧ (∀ out ∈ outs, IsLine cursorMaxColumns out) ∧
      ShowsPage fb font cursorMaxLines cursorMaxColumns s.cursor.fgColor s.cursor.bgColor
        (placed cursorMaxColumns 0 (outs.flatten.map charArgument)) s.mem s'.mem ∧
      s'.cursor.line = (startLog bd).length ∧ s'.cursor.column = 0 ∧
      ∀ b ∉ framebufferBytes fb, s'.mem.byte b = s.mem.byte b := by
  obtain ⟨outs, houts, hlines⟩ := exists_outs (startLog_lines hcpu)
  have hlength := startLog_length bd
  have hcount : (startLog bd).length = outs.length := houts.length_eq
  obtain ⟨hend, hcells⟩ := lines_placed (k := 0) hlines
  rw [Nat.zero_add, Nat.zero_mul] at hend hcells
  have hgrid : ∀ cell ∈ placed cursorMaxColumns 0 (outs.flatten.map charArgument),
      cell.1 < cursorMaxLines * cursorMaxColumns := by
    intro cell hcell
    have hlt := hcells cell hcell
    have hle : outs.length * cursorMaxColumns ≤ cursorMaxLines * cursorMaxColumns :=
      Nat.mul_le_mul_right _ (by
        show outs.length ≤ 37
        omega)
    omega
  have hblank : ∀ cell ∈ (0, blankChar) :: placed cursorMaxColumns 0 (outs.flatten.map charArgument),
      cell.2.toNat < 0x80 :=
    List.forall_mem_cons.mpr ⟨by decide, ascii_of_lines hlines⟩
  obtain ⟨start, hclear, hat, hfg', hbg', hother, hblanks⟩ := h.clearScreen_spec hcursor hfg hbg hrows
    (hapart [(0, blankChar)] (by decide))
  obtain ⟨s', hchars⟩ := h.printChars_isSome hat hrows hgrid
  obtain ⟨hshows, hother', -, -⟩ := h.showsText_of_printChars hat (hfg' ▸ hfg) (hbg' ▸ hbg) hgrid
    (hapart _ (ascii_of_lines hlines)) hchars
  rw [hfg', hbg'] at hshows
  have hfinal := (printChars_eq_some h.toScreenFits hchars hat h.columns_pos h.columns_lt).1
  rw [hend] at hfinal
  refine ⟨start, s', outs, hclear, ?_, houts, hlines, ?_, ?_, ?_, ?_⟩
  · rw [printfs_eq houts, hchars]
  · exact hshows.page (hapart _ hblank) hother hblanks
  · rw [hfinal.line, Nat.mul_div_cancel _ h.columns_pos, hcount]
    exact Nat.mod_eq_of_lt (by omega)
  · rw [hfinal.column, Nat.mul_mod_left]
  · intro b hb
    rw [hother' b hb, hother b hb]

end Screen

theorem asciiApart_padded : AsciiApart paddedScreen smallFont :=
  fun _ hcells => fontApart_padded fun cell hcell => (hcells cell hcell).trans (by decide)

theorem rowsDefined_padded : RowsDefined paddedScreen smallFont (cursorMaxLines - 1) := by
  intro _ _
  decide

/-- A processor that calls itself `GenuineIntel` and has no brand. -/
def intelBoot : BootData where
  answer := fun leaf => if leaf = 0 then ⟨0, 0x756e6547, 0x6c65746e, 0x49656e69⟩ else ⟨0, 0, 0, 0⟩
  pmem := ⟨1000, 24, 8, 1032, 0x100000, true⟩
  acpiVersion := 2
  localId := 0
  apicVersion := 0x14
  noTimers := 3
  counterEnabled := 1
  counter := 1000
  counter' := 2000
  compar := 10002000

theorem boot_log_shown_intel :
    ∃ start s' outs, clearScreen paddedScreen smallFont smallConsole = some start ∧
      printfs paddedScreen smallFont (fun _ _ => 0xff) (fun _ _ => 0xff) 0 start (startLog intelBoot) =
        some s' ∧
      List.Forall₂ PrintfCall.Prints (startLog intelBoot) outs ∧
      (∀ out ∈ outs, IsLine cursorMaxColumns out) ∧
      ShowsPage paddedScreen smallFont cursorMaxLines cursorMaxColumns smallConsole.cursor.fgColor
        smallConsole.cursor.bgColor (placed cursorMaxColumns 0 (outs.flatten.map charArgument))
        smallConsole.mem s'.mem ∧
      s'.cursor.line = (startLog intelBoot).length ∧ s'.cursor.column = 0 ∧
      ∀ b ∉ framebufferBytes paddedScreen, s'.mem.byte b = smallConsole.mem.byte b :=
  boot_log_shown textScreen_padded ⟨rfl, rfl⟩ (by decide) (by decide) rowsDefined_padded
    asciiApart_padded ⟨by decide +kernel, by decide +kernel⟩ (fun _ _ => 0xff) fun _ _ => 0xff

/-! ### A panic -/

/-- What a panic prints. -/
def panicText (msg : CString) : List UInt16 :=
  (literal "Kernel panic!!! \n" ++ (literal "Error: " ++ msg.chars)).map charArgument

/-- The screen shows the characters in white on blue, blue everywhere else, and a black column of pixels
after a character that is not followed by another. -/
structure ShowsPanic (fb : GraphicsFramebuffer) (font : ConsoleFont) (lines columns : Nat)
    (cells : List (Nat × UInt16)) (mem mem' : Memory) : Prop where
  glyph : ∀ cell ∈ cells, ∀ x < font.glyphWidth, ∀ y < font.glyphHeight,
    readPixel fb mem' (cellX font columns cell.1 x) (cellY font columns cell.1 y) =
      glyphColor (cellGlyph font columns colorWhite colorBlue cell) mem x y
  beside : ∀ cell ∈ cells, (cell.1 + 1) % columns ≠ 0 → (∀ cell' ∈ cells, cell'.1 ≠ cell.1 + 1) →
    ∀ y < font.glyphHeight, readPixel fb mem' (cellX font columns (cell.1 + 1) 0)
      (cellY font columns (cell.1 + 1) y) = 0
  blue : ∀ i < lines * columns, (∀ cell ∈ cells, cell.1 ≠ i) → ∀ x < font.glyphWidth,
    ∀ y < font.glyphHeight, (x = 0 → i % columns ≠ 0 → ∀ cell ∈ cells, i ≠ cell.1 + 1) →
      readPixel fb mem' (cellX font columns i x) (cellY font columns i y) = colorBlue

section Panic
variable {fb : GraphicsFramebuffer} {font : ConsoleFont} {s : ConsoleState} {lines columns : Nat}
  {mem : Memory} {color : Nat} {msg : CString}

/-- On a screen with padded scanlines a fill is solid, and leaves the rest of the memory. -/
theorem PixelMode.setAllPixels_padded (h : PixelMode fb) (hpadded : fb.width < fb.pixelsPerScanline)
    (hsize : fb.pixelsPerScanline * fb.height * 4 < 2 ^ 31) (hcolor : color < 2 ^ 32) :
    ∃ mem', setAllPixels fb mem color = some mem' ∧
      (∀ x < fb.width, ∀ y < fb.height, readPixel fb mem' x y = color) ∧
      ∀ b ∉ framebufferBytes fb, mem'.byte b = mem.byte b := by
  obtain ⟨mem', hrun, hpixels, -⟩ : ∃ mem', setAllPixels fb mem color = some mem' ∧
      pixels fb mem' = filled fb mem color fb.width ∧ _ := h.setAllPixels_spec hsize hcolor
  refine ⟨mem', hrun, ?_, ?_⟩
  · intro x hx y hy
    rw [h.readPixel_eq mem' (by omega) hy, hpixels]
    exact filled_eq_color hpadded hx hy
  · intro b hb
    rw [setAllPixels_eq] at hrun
    have hvalid : ∀ p ∈ (List.range fb.width).flatMap (fun x =>
        (List.range fb.height).map fun y => (⟨x, y, color⟩ : PixelStore)),
        p.Valid fb ∧ p.x + 1 < fb.pixelsPerScanline := by
      intro p hp
      obtain ⟨x, hx, hp⟩ := List.mem_flatMap.mp hp
      obtain ⟨y, hy, rfl⟩ := List.mem_map.mp hp
      rw [List.mem_range] at hx hy
      refine ⟨⟨hx.trans hpadded, hy, h.rowDefined_iff.mpr ?_, hcolor⟩, lt_of_le_of_lt hx hpadded⟩
      have hrow : y * fb.pixelsPerScanline ≤ fb.height * fb.pixelsPerScanline :=
        Nat.mul_le_mul_right _ hy.le
      show y * fb.pixelsPerScanline * 4 < 2 ^ 31
      rw [Nat.mul_comm fb.pixelsPerScanline] at hsize
      omega
    exact h.storePixels_byte (fun p hp => (hvalid p hp).1)
      (fun p hp hmem => hb ((hvalid p hp).1.bytes_subset_framebuffer (hvalid p hp).2 hmem)) hrun

theorem TextScreen.rowsDefined (h : TextScreen fb font lines columns) (hlines : 0 < lines)
    (hsize : fb.pixelsPerScanline * fb.height * 4 < 2 ^ 31) : RowsDefined fb font (lines - 1) := by
  intro hheight hwidth
  have hlast : (lines - 1) * font.glyphHeight + font.glyphHeight - 1 ≤ fb.height := by
    have hlines' : (lines - 1) * font.glyphHeight + font.glyphHeight = lines * font.glyphHeight := by
      obtain ⟨n, rfl⟩ : ∃ n, lines = n + 1 := ⟨lines - 1, by omega⟩
      rw [Nat.add_sub_cancel, Nat.add_mul, Nat.one_mul]
    have hheight' := h.height
    omega
  have hrow : ((lines - 1) * font.glyphHeight + font.glyphHeight - 1) * fb.pixelsPerScanline ≤
      fb.height * fb.pixelsPerScanline := Nat.mul_le_mul_right _ hlast
  rw [Nat.mul_comm fb.pixelsPerScanline] at hsize
  omega

theorem prints_panic (hmsg : msg.chars.length ≤ 4000) :
    List.Forall₂ PrintfCall.Prints
      [⟨cstring "Kernel panic!!! \n", []⟩, ⟨cstring "Error: %s", [.str msg]⟩]
      [literal "Kernel panic!!! \n", literal "Error: " ++ msg.chars] := by
  have herror : expansion (literal "Error: %s") [.str msg] =
      some (literal "Error: " ++ (msg.chars ++ [])) := rfl
  rw [List.append_nil] at herror
  refine .cons ⟨by decide +kernel, by decide +kernel, by decide +kernel⟩
    (.cons ⟨herror, show (literal "Error: %s").length < 2 ^ 16 by decide +kernel, ?_⟩ .nil)
  have hlength : (literal "Error: ").length = 7 := by decide +kernel
  rw [List.length_append, hlength]
  omega

/-- A panic shows its message on blue whatever was on the screen and wherever the cursor was, and
changes nothing in memory but the framebuffer. The scanlines are longer than a line of cells and than
the screen is wide, and the message fits the grid and the buffer of `printf`. -/
theorem kpanic_shows_message (h : TextScreen fb font lines columns)
    (hcursor : s.cursor.Of lines columns) (hlines : 0 < lines)
    (hpadded : fb.width < fb.pixelsPerScanline)
    (hsize : fb.pixelsPerScanline * fb.height * 4 < 2 ^ 31) (hmsg : msg.chars.length ≤ 4000)
    (hgrid : ∀ cell ∈ placed columns 0 (panicText msg), cell.1 < lines * columns)
    (hapart : FontApart fb font (placed columns 0 (panicText msg)))
    (buf tempBuf : Nat → Nat → UInt8) :
    ∃ s', kpanic fb font buf tempBuf s msg = some s' ∧
      ShowsPanic fb font lines columns (placed columns 0 (panicText msg)) s.mem s'.mem ∧
      s'.cursor.fgColor = colorWhite ∧ s'.cursor.bgColor = colorBlue ∧
      ∀ b ∉ framebufferBytes fb, s'.mem.byte b = s.mem.byte b := by
  obtain ⟨mem, hfill, hsolid, hother⟩ : ∃ mem, setAllPixels fb s.mem colorBlue = some mem ∧ _ :=
    h.pixelMode.setAllPixels_padded hpadded hsize (by decide)
  have hat : (((s.cursor.gotoxy 0 0).setBgColor colorBlue).setFgColor colorWhite).At lines columns 0 := by
    refine ⟨hcursor.maxLines, hcursor.maxColumns, ?_, (Nat.zero_mod _).symm⟩
    show 0 = 0 / columns % 2 ^ 16
    rw [Nat.zero_div, Nat.zero_mod]
  obtain ⟨s', hchars⟩ := h.printChars_isSome (s := { s with
    cursor := ((s.cursor.gotoxy 0 0).setBgColor colorBlue).setFgColor colorWhite
    mem := mem }) hat (h.rowsDefined hlines hsize) hgrid
  obtain ⟨hshows, hother', hfg, hbg⟩ := h.showsText_of_printChars (s := { s with
    cursor := ((s.cursor.gotoxy 0 0).setBgColor colorBlue).setFgColor colorWhite
    mem := mem }) hat (show colorWhite < 2 ^ 32 by decide) (show colorBlue < 2 ^ 32 by decide) hgrid
    hapart hchars
  refine ⟨s', ?_, ⟨?_, hshows.beside, ?_⟩, hfg, hbg, ?_⟩
  · rw [kpanic, hfill, Option.bind_some, printfs_eq (prints_panic hmsg), List.flatten_cons,
      List.flatten_cons, List.flatten_nil, List.append_nil]
    exact hchars
  · intro cell hcell x hx y hy
    exact (hshows.glyph cell hcell x hx y hy).trans (hapart.glyphColor_eq hcell hy hother)
  · intro i hi hfree x hx y hy hbeside
    obtain ⟨hx', hy'⟩ := h.cell_lt hi hx hy
    exact (hshows.others i hi hfree x hx y hy hbeside).trans (hsolid _ hx' _ hy')
  · intro b hb
    rw [hother' b hb]
    exact hother b hb

/-- `kpanic("division by zero")`, from the middle of the screen. -/
theorem kpanic_shows_message_division :
    ∃ s', kpanic paddedScreen smallFont (fun _ _ => 0xff) (fun _ _ => 0xff)
        { smallConsole with cursor := smallConsole.cursor.gotoxy 40 20 }
        (cstring "division by zero") = some s' ∧
      ShowsPanic paddedScreen smallFont cursorMaxLines cursorMaxColumns
        (placed cursorMaxColumns 0 (panicText (cstring "division by zero"))) smallConsole.mem s'.mem ∧
      s'.cursor.fgColor = colorWhite ∧ s'.cursor.bgColor = colorBlue ∧
      ∀ b ∉ framebufferBytes paddedScreen, s'.mem.byte b = smallConsole.mem.byte b :=
  kpanic_shows_message (s := { smallConsole with cursor := smallConsole.cursor.gotoxy 40 20 })
    textScreen_padded ⟨rfl, rfl⟩ (by decide) (by decide) (by decide) (by decide +kernel)
    (by decide +kernel) (fontApart_padded (by decide +kernel)) (fun _ _ => 0xff) fun _ _ => 0xff

end Panic

end MyOSKernel
