import MyOSKernel.Console

/-! The cursor under all the operations of the console. Moving forward wraps at the end of a line;
moving back from the start of a line goes to the column after the last, where the next comparison
with `max_columns` fails. -/

namespace MyOSKernel

namespace ConsoleCursor

/-- `ConsoleCursor__back`. -/
def back (self : ConsoleCursor) : ConsoleCursor :=
  if self.column = 0 then
    if self.line > 0 then { self with column := self.maxColumns, line := self.line - 1 } else self
  else { self with column := self.column - 1 }

def gotoxy (self : ConsoleCursor) (x y : Nat) : ConsoleCursor := { self with column := x, line := y }

end ConsoleCursor

/-- A call that moves the cursor. -/
inductive ConsoleOp
  | next
  | back
  | newLine
  | reset
  | gotoxy (x y : Nat)
  | printChar (chr : UInt16)
  | clearScreen

namespace ConsoleOp

def run (fb : GraphicsFramebuffer) (font : ConsoleFont) (s : ConsoleState) :
    ConsoleOp → Option ConsoleState
  | next => some { s with cursor := s.cursor.next }
  | back => some { s with cursor := s.cursor.back }
  | newLine => some { s with cursor := s.cursor.newLine }
  | reset => some { s with cursor := s.cursor.reset }
  | gotoxy x y => some { s with cursor := s.cursor.gotoxy x y }
  | printChar chr => MyOSKernel.printChar fb font s chr
  | clearScreen => MyOSKernel.clearScreen fb font s

/-- The position of a `gotoxy` lies in the grid. -/
def InGrid (lines columns : Nat) : ConsoleOp → Prop
  | gotoxy x y => x < columns ∧ y < lines
  | _ => True

end ConsoleOp

/-- A sequence of calls. -/
def runConsole (fb : GraphicsFramebuffer) (font : ConsoleFont) (s : ConsoleState)
    (ops : List ConsoleOp) : Option ConsoleState :=
  ops.foldlM (fun s op => op.run fb font s) s

namespace ConsoleCursor
variable {cursor : ConsoleCursor} {lines columns : Nat}

/-- The cursor of a grid of `lines` lines and `columns` columns. -/
structure Of (cursor : ConsoleCursor) (lines columns : Nat) : Prop where
  maxLines : cursor.maxLines = lines
  maxColumns : cursor.maxColumns = columns

theorem Of.newLine (h : cursor.Of lines columns) : cursor.newLine.Of lines columns :=
  ⟨h.maxLines, h.maxColumns⟩

theorem Of.next (h : cursor.Of lines columns) : cursor.next.Of lines columns := by
  unfold ConsoleCursor.next
  split_ifs
  · exact h.newLine
  · exact ⟨h.maxLines, h.maxColumns⟩

theorem Of.back (h : cursor.Of lines columns) : cursor.back.Of lines columns := by
  unfold ConsoleCursor.back
  split_ifs
  · exact ⟨h.maxLines, h.maxColumns⟩
  · exact h
  · exact ⟨h.maxLines, h.maxColumns⟩

/-- The cursor of a grid, in one of its columns. -/
structure Inside (cursor : ConsoleCursor) (lines columns : Nat) : Prop extends
    cursor.Of lines columns where
  column : cursor.column < columns

theorem Inside.newLine (h : cursor.Inside lines columns) : cursor.newLine.Inside lines columns :=
  ⟨h.toOf.newLine, (Nat.zero_le _).trans_lt h.column⟩

theorem Inside.next (h : cursor.Inside lines columns) : cursor.next.Inside lines columns := by
  have hcolumn := h.column
  have hmax := h.maxColumns
  refine ⟨h.toOf.next, ?_⟩
  unfold ConsoleCursor.next
  by_cases hend : cursor.column + 1 = cursor.maxColumns
  · rw [if_pos hend]
    exact h.newLine.column
  · rw [if_neg hend]
    show (cursor.column + 1) % 2 ^ 16 < columns
    omega

/-- Moving back stays in the grid except from the start of a later line. -/
theorem Inside.back (h : cursor.Inside lines columns) (hstart : cursor.column = 0 → cursor.line = 0) :
    cursor.back.Inside lines columns := by
  have hcolumn := h.column
  refine ⟨h.toOf.back, ?_⟩
  unfold ConsoleCursor.back
  by_cases hzero : cursor.column = 0
  · rw [if_pos hzero, if_neg (by rw [hstart hzero]; decide)]
    exact h.column
  · rw [if_neg hzero]
    show cursor.column - 1 < columns
    omega

theorem back_column_of_start (hcolumn : cursor.column = 0) (hline : 0 < cursor.line) :
    cursor.back.column = cursor.maxColumns := by
  rw [ConsoleCursor.back, if_pos hcolumn, if_pos hline]

/-- Moving forward and back again, from within a line. -/
theorem back_next_of_ne (hend : cursor.column + 1 ≠ cursor.maxColumns)
    (hcolumn : cursor.column < cursor.maxColumns) (hcolumns : cursor.maxColumns < 2 ^ 16) :
    cursor.next.back = cursor := by
  have hmod : (cursor.column + 1) % 2 ^ 16 = cursor.column + 1 := by omega
  rw [ConsoleCursor.next, if_neg hend, hmod, ConsoleCursor.back, if_neg (Nat.succ_ne_zero _)]
  rfl

/-- From the last column the way back ends after it. -/
theorem back_next_of_end (hend : cursor.column + 1 = cursor.maxColumns)
    (hline : cursor.line + 1 < 2 ^ 16) : cursor.next.back.column = cursor.maxColumns := by
  have hlater : 0 < cursor.newLine.line := by
    show 0 < (cursor.line + 1) % 2 ^ 16
    omega
  rw [ConsoleCursor.next, if_pos hend, back_column_of_start rfl hlater]
  rfl

theorem back_next_iff (hlines : cursor.maxLines < 2 ^ 16) (hcolumns : cursor.maxColumns < 2 ^ 16)
    (hcolumn : cursor.column < cursor.maxColumns) (hline : cursor.line < cursor.maxLines) :
    (cursor.next.back.line = cursor.line ∧ cursor.next.back.column = cursor.column) ↔
      cursor.column + 1 ≠ cursor.maxColumns := by
  by_cases hend : cursor.column + 1 = cursor.maxColumns
  · have hback := back_next_of_end hend (show cursor.line + 1 < 2 ^ 16 by omega)
    constructor
    · intro h
      have hsame := h.2
      omega
    · intro h
      exact absurd hend h
  · rw [back_next_of_ne hend hcolumn hcolumns]
    exact iff_of_true ⟨rfl, rfl⟩ hend

end ConsoleCursor

section Print
variable {fb : GraphicsFramebuffer} {font : ConsoleFont} {s s' : ConsoleState} {chr : UInt16}
  {chars : List UInt16}

/-- Printing moves the cursor by new lines and steps to the right only. -/
theorem printChar_cursor (P : ConsoleCursor → Prop) (hnewLine : ∀ c, P c → P c.newLine)
    (hnext : ∀ c, P c → P c.next) (hrun : printChar fb font s chr = some s') (h : P s.cursor) :
    P s'.cursor := by
  unfold printChar at hrun
  split_ifs at hrun
  · cases hrun
    exact hnewLine _ h
  · cases hrun
    exact hnext _ (hnext _ (hnext _ h))
  · obtain ⟨mem, -, rfl⟩ := Option.map_eq_some_iff.mp hrun
    exact hnext _ h

theorem printChars_cursor (P : ConsoleCursor → Prop) (hnewLine : ∀ c, P c → P c.newLine)
    (hnext : ∀ c, P c → P c.next) (hrun : printChars fb font s chars = some s') (h : P s.cursor) :
    P s'.cursor := by
  induction chars generalizing s with
  | nil =>
      cases hrun
      exact h
  | cons chr chars ih =>
      rw [printChars_cons, Option.bind_eq_some_iff] at hrun
      obtain ⟨next, hchar, hrest⟩ := hrun
      exact ih hrest (printChar_cursor P hnewLine hnext hchar h)

end Print

section Run
variable {fb : GraphicsFramebuffer} {font : ConsoleFont} {s s' : ConsoleState} {op : ConsoleOp}
  {ops : List ConsoleOp} {lines columns : Nat}

theorem clearScreen_inside (hrun : clearScreen fb font s = some s') (h : s.cursor.Of lines columns)
    (hcolumns : 0 < columns) : s'.cursor.Inside lines columns := by
  obtain ⟨-, t, hchars, rfl⟩ := clearScreen_eq_some_iff.mp hrun
  have hstart : s.cursor.reset.Of lines columns := ⟨h.maxLines, h.maxColumns⟩
  have hend : t.cursor.Of lines columns :=
    printChars_cursor (·.Of lines columns) (fun _ h => h.newLine) (fun _ h => h.next) hchars hstart
  exact ⟨⟨hend.maxLines, hend.maxColumns⟩, hcolumns⟩

/-- Each call keeps the cursor in its columns; a step back does so within a line. -/
theorem ConsoleOp.run_inside (hrun : op.run fb font s = some s') (h : s.cursor.Inside lines columns)
    (hgrid : op.InGrid lines columns)
    (hback : op = .back → s.cursor.column = 0 → s.cursor.line = 0) :
    s'.cursor.Inside lines columns := by
  have hpos : 0 < columns := (Nat.zero_le _).trans_lt h.column
  cases op with
  | next =>
      cases hrun
      exact h.next
  | back =>
      cases hrun
      exact h.back (hback rfl)
  | newLine =>
      cases hrun
      exact h.newLine
  | reset =>
      cases hrun
      exact ⟨⟨h.maxLines, h.maxColumns⟩, hpos⟩
  | gotoxy x y =>
      cases hrun
      exact ⟨⟨h.maxLines, h.maxColumns⟩, hgrid.1⟩
  | printChar chr =>
      exact printChar_cursor (·.Inside lines columns) (fun _ h => h.newLine) (fun _ h => h.next) hrun h
  | clearScreen => exact clearScreen_inside hrun h.toOf hpos

theorem runConsole_append (before after : List ConsoleOp) : runConsole fb font s (before ++ after) =
    (runConsole fb font s before).bind fun t => runConsole fb font t after :=
  List.foldlM_append

theorem runConsole_append_singleton (before : List ConsoleOp) :
    runConsole fb font s (before ++ [op]) =
      (runConsole fb font s before).bind fun t => op.run fb font t := by
  rw [runConsole_append]
  congr 1
  funext t
  exact bind_pure (op.run fb font t)

/-- As long as no step back leaves the start of a later line, the cursor stays in its columns. -/
theorem runConsole_inside (h : s.cursor.Inside lines columns)
    (hgrid : ∀ op ∈ ops, op.InGrid lines columns)
    (hback : ∀ before after t, ops = before ++ .back :: after → runConsole fb font s before = some t →
      t.cursor.column = 0 → t.cursor.line = 0)
    (hrun : runConsole fb font s ops = some s') : s'.cursor.Inside lines columns := by
  induction ops using List.reverseRecOn generalizing s' with
  | nil =>
      cases hrun
      exact h
  | append_singleton ops op ih =>
      rw [runConsole_append_singleton, Option.bind_eq_some_iff] at hrun
      obtain ⟨t, ht, hlast⟩ := hrun
      have hin : t.cursor.Inside lines columns := by
        apply ih
        · exact fun op' hop => hgrid op' (List.mem_append_left _ hop)
        · intro before after t' hsplit
          apply hback before (after ++ [op]) t'
          rw [hsplit, List.append_assoc, List.cons_append]
        · exact ht
      apply ConsoleOp.run_inside hlast hin (hgrid op (by simp))
      rintro rfl
      exact hback ops [] t rfl ht

/-- Whatever the calls, the cursor stays in its columns exactly when no step back is made from the
start of a later line; and a step back undoes a step forward exactly from a column before the
last. -/
theorem cursor_columns_iff (fb : GraphicsFramebuffer) (font : ConsoleFont) (s : ConsoleState)
    (ops : List ConsoleOp) (hcolumns : 1 ≤ s.cursor.maxColumns)
    (hgrid : ∀ op ∈ ops, op.InGrid s.cursor.maxLines s.cursor.maxColumns) :
    ((∀ before after t, ops = before ++ after →
        runConsole fb font { s with cursor := s.cursor.reset } before = some t →
          t.cursor.column < t.cursor.maxColumns) ↔
      ∀ before after t, ops = before ++ .back :: after →
        runConsole fb font { s with cursor := s.cursor.reset } before = some t →
          t.cursor.column = 0 → t.cursor.line = 0) ∧
    ∀ cursor : ConsoleCursor, cursor.maxLines < 2 ^ 16 → cursor.maxColumns < 2 ^ 16 →
      cursor.column < cursor.maxColumns → cursor.line < cursor.maxLines →
        ((cursor.next.back.line = cursor.line ∧ cursor.next.back.column = cursor.column) ↔
          cursor.column + 1 ≠ cursor.maxColumns) := by
  refine ⟨⟨?_, ?_⟩, fun _ => ConsoleCursor.back_next_iff⟩
  · intro hinside before after t hsplit hrun hcolumn
    by_contra hline
    have hback : runConsole fb font { s with cursor := s.cursor.reset } (before ++ [.back]) =
        some { t with cursor := t.cursor.back } := by
      rw [runConsole_append_singleton, hrun]
      rfl
    have hlater := hinside (before ++ [.back]) after _ (by rw [hsplit]; simp) hback
    have hend := ConsoleCursor.back_column_of_start hcolumn (Nat.pos_of_ne_zero hline)
    have hsame : t.cursor.back.maxColumns = t.cursor.maxColumns :=
      (ConsoleCursor.Of.back ⟨rfl, rfl⟩).maxColumns
    have hlater' : t.cursor.back.column < t.cursor.back.maxColumns := hlater
    omega
  · intro hback before after t hsplit hrun
    have hstart : s.cursor.reset.Inside s.cursor.maxLines s.cursor.maxColumns :=
      ⟨⟨rfl, rfl⟩, hcolumns⟩
    have hbefore : ∀ op ∈ before, op.InGrid s.cursor.maxLines s.cursor.maxColumns :=
      fun op hop => hgrid op (hsplit ▸ List.mem_append_left _ hop)
    have hend : t.cursor.Inside s.cursor.maxLines s.cursor.maxColumns := by
      apply runConsole_inside hstart hbefore _ hrun
      intro early late t' hsplit' hrun'
      apply hback early (late ++ after) t' _ hrun'
      rw [hsplit, hsplit', List.append_assoc, List.cons_append]
    rw [hend.maxColumns]
    exact hend.column

end Run

theorem cursor_columns_iff_small :
    ((∀ before after t, [ConsoleOp.gotoxy 5 1, .back, .next] = before ++ after →
        runConsole smallScreen smallFont { smallConsole with cursor := smallConsole.cursor.reset }
          before = some t → t.cursor.column < t.cursor.maxColumns) ↔
      ∀ before after t, [ConsoleOp.gotoxy 5 1, .back, .next] = before ++ .back :: after →
        runConsole smallScreen smallFont { smallConsole with cursor := smallConsole.cursor.reset }
          before = some t → t.cursor.column = 0 → t.cursor.line = 0) ∧
    ∀ cursor : ConsoleCursor, cursor.maxLines < 2 ^ 16 → cursor.maxColumns < 2 ^ 16 →
      cursor.column < cursor.maxColumns → cursor.line < cursor.maxLines →
        ((cursor.next.back.line = cursor.line ∧ cursor.next.back.column = cursor.column) ↔
          cursor.column + 1 ≠ cursor.maxColumns) :=
  cursor_columns_iff smallScreen smallFont smallConsole [.gotoxy 5 1, .back, .next] (by decide)
    (by simp [ConsoleOp.InGrid, smallConsole, cursorMaxLines, cursorMaxColumns])

/-- A new line and a step back leave the cursor after the last column. -/
theorem cursor_leaves_columns :
    ¬∀ (fb : GraphicsFramebuffer) (font : ConsoleFont) (s : ConsoleState) (ops : List ConsoleOp),
      1 ≤ s.cursor.maxColumns →
      (∀ op ∈ ops, op.InGrid s.cursor.maxLines s.cursor.maxColumns) →
      ∀ before after t, ops = before ++ after →
        runConsole fb font { s with cursor := s.cursor.reset } before = some t →
          t.cursor.column < t.cursor.maxColumns := by
  intro h
  have hend := h smallScreen smallFont smallConsole [.newLine, .back] (by decide)
    (by simp [ConsoleOp.InGrid]) [.newLine, .back] [] _ rfl rfl
  exact absurd hend (by decide)

end MyOSKernel
