import MyOSKernel.FontReads
import MyOSKernel.ScreenText

/-! Calls of `printf` one after the other. A format can be cut anywhere but inside a directive: the
second part goes on with the arguments the first has left. A format whose output takes one line of the
screen can be told from its text and the widths of its arguments. -/

namespace MyOSKernel

/-- The bytes of a string literal. -/
def literal (s : String) : List UInt8 := s.toList.map fun c => UInt8.ofNat c.toNat

/-- A string literal of the source. -/
def cstring (s : String)
    (h : (∀ c ∈ literal s, c ≠ 0) ∧ (literal s).length < 2 ^ 64 := by decide +kernel) : CString :=
  ⟨literal s, h.1, h.2⟩

structure PrintfCall where
  format : CString
  args : List PrintfArg

/-- `printf` on the kernel's console, over whatever its stack held. More rounds than the loop counter
can tell apart are not made by a loop that ends. -/
def printf (fb : GraphicsFramebuffer) (font : ConsoleFont) (buf tempBuf : Nat → UInt8)
    (s : ConsoleState) (call : PrintfCall) : Option ConsoleState :=
  (consolePrintf buf tempBuf call.format call.args (2 ^ 16)).bind fun r =>
    printChars fb font s (r.2.map charArgument)

/-- Calls from the `n`-th on, each with what the stack holds then. -/
def printfs (fb : GraphicsFramebuffer) (font : ConsoleFont) (buf tempBuf : Nat → Nat → UInt8) :
    Nat → ConsoleState → List PrintfCall → Option ConsoleState
  | _, s, [] => some s
  | n, s, call :: calls => (printf fb font (buf n) (tempBuf n) s call).bind fun s =>
      printfs fb font buf tempBuf (n + 1) s calls

/-- Whether the directives of a format have an argument of their own. -/
def takesArg (c : UInt8) : Bool :=
  c = UInt8.ofNat 's'.toNat || c = UInt8.ofNat 'd'.toNat || c = UInt8.ofNat 'p'.toNat

/-- Whether the scanner stands after a `%` at the end of a format. -/
def afterPercent (isPercent : Bool) : List UInt8 → Bool
  | [] => isPercent
  | c :: format => afterPercent (!isPercent && c = percent) format

/-- The number of arguments a format takes. -/
def argCount (isPercent : Bool) : List UInt8 → Nat
  | [] => 0
  | c :: format =>
    (if isPercent && takesArg c then 1 else 0) + argCount (!isPercent && c = percent) format

section Append
variable {c : UInt8} {format format' : List UInt8} {args : List PrintfArg} {isPercent : Bool}

theorem directive_rest {r : List UInt8 × List PrintfArg} (h : directive c args = some r) :
    r.2 = args.drop (if takesArg c then 1 else 0) := by
  unfold directive at h
  unfold takesArg
  by_cases hs : c = UInt8.ofNat 's'.toNat
  · rw [if_pos hs] at h
    split at h
    · cases h
      simp [hs]
    · cases h
  · by_cases hd : c = UInt8.ofNat 'd'.toNat
    · rw [if_neg hs, if_pos hd] at h
      split at h
      · cases h
        simp [hd]
      · cases h
    · by_cases hp : c = UInt8.ofNat 'p'.toNat
      · rw [if_neg hs, if_neg hd, if_pos hp] at h
        split at h
        · cases h
          simp [hp]
        · cases h
      · rw [if_neg hs, if_neg hd, if_neg hp] at h
        cases h
        rw [decide_eq_false hs, decide_eq_false hd, decide_eq_false hp]
        rfl

/-- The second part of a format goes on where the first has ended. -/
theorem expandFrom_append : expandFrom isPercent (format ++ format') args =
    (expandFrom isPercent format args).bind fun out =>
      (expandFrom (afterPercent isPercent format) format' (args.drop (argCount isPercent format))).map
        (out ++ ·) := by
  induction format generalizing isPercent args with
  | nil =>
      rw [expandFrom_nil, Option.bind_some]
      show _ = (expandFrom isPercent format' args).map id
      rw [Option.map_id, List.nil_append]
      rfl
  | cons c format ih =>
      rw [List.cons_append, afterPercent, argCount]
      cases isPercent with
      | true =>
          rw [expandFrom_true_cons, expandFrom_true_cons]
          simp only [Bool.not_true, Bool.false_and, Bool.true_and]
          cases hdirective : directive c args with
          | none => rfl
          | some r =>
              rw [Option.bind_some, Option.bind_some, ih, directive_rest hdirective, List.drop_drop]
              cases expandFrom false format (args.drop (if takesArg c then 1 else 0)) with
              | none => rfl
              | some out =>
                  simp only [Option.bind_some, Option.map_some, Option.map_map]
                  congr 1
                  funext rest
                  exact (List.append_assoc _ _ _).symm
      | false =>
          simp only [Bool.not_false, Bool.true_and, Bool.false_and, Bool.false_eq_true, if_false,
            Nat.zero_add]
          by_cases hc : c = percent
          · rw [hc, expandFrom_false_percent, expandFrom_false_percent, ih]
            rfl
          · rw [expandFrom_false_cons hc, expandFrom_false_cons hc, ih, decide_eq_false hc]
            cases expandFrom false format args with
            | none => rfl
            | some out =>
                simp only [Option.bind_some, Option.map_some, Option.map_map]
                rfl

end Append

/-- What a call prints; the format is short enough for the loop counter and the output for the
buffer. -/
structure PrintfCall.Prints (call : PrintfCall) (out : List UInt8) : Prop where
  expansion : expansion call.format.chars call.args = some out
  short : call.format.chars.length < 2 ^ 16
  fits : out.length ≤ 4095

section Console
variable {fb : GraphicsFramebuffer} {font : ConsoleFont} {s : ConsoleState} {call : PrintfCall}
  {calls : List PrintfCall} {out : List UInt8} {outs : List (List UInt8)}

theorem PrintfCall.Prints.printf_eq (h : call.Prints out) (buf tempBuf : Nat → UInt8) :
    printf fb font buf tempBuf s call = printChars fb font s (out.map charArgument) := by
  obtain ⟨state, hrun, -⟩ : ∃ state, consolePrintf buf tempBuf call.format call.args (2 ^ 16) =
      some (state, out) ∧ _ := consolePrintf_of_fits h.expansion h.short h.fits h.short
  rw [printf, hrun, Option.bind_some]

theorem printChars_append (chars chars' : List UInt16) : printChars fb font s (chars ++ chars') =
    (printChars fb font s chars).bind fun s => printChars fb font s chars' := List.foldlM_append

theorem printfs_eq (h : List.Forall₂ PrintfCall.Prints calls outs) (buf tempBuf : Nat → Nat → UInt8)
    (n : Nat) : printfs fb font buf tempBuf n s calls =
      printChars fb font s (outs.flatten.map charArgument) := by
  induction h generalizing s n with
  | nil => rfl
  | cons hcall _ ih =>
      rw [printfs, hcall.printf_eq, List.flatten_cons, List.map_append, printChars_append]
      congr 1
      funext s
      exact ih (n + 1)

/-- A format put together from two, the first of which ends outside of a directive. -/
def CString.append (str str' : CString) (hfits : str.chars.length + str'.chars.length < 2 ^ 64) :
    CString where
  chars := str.chars ++ str'.chars
  nonzero := by
    intro c hc
    obtain hc | hc := List.mem_append.mp hc
    · exact str.nonzero c hc
    · exact str'.nonzero c hc
  fits := by rwa [List.length_append]

/-- Printing a format is printing its parts, the second with the arguments the first has left. -/
theorem printf_append {str str' : CString} {args : List PrintfArg}
    (hcomplete : afterPercent false str.chars = false)
    (hlength : str.chars.length + str'.chars.length < 2 ^ 64)
    (hprints : PrintfCall.Prints ⟨str.append str' hlength, args⟩ out)
    (buf tempBuf : Nat → Nat → UInt8) :
    printf fb font (buf 0) (tempBuf 0) s ⟨str.append str' hlength, args⟩ =
      printfs fb font buf tempBuf 1 s [⟨str, args⟩, ⟨str', args.drop (argCount false str.chars)⟩] := by
  have hwhole : expandFrom false (str.chars ++ str'.chars) args = some out := hprints.expansion
  rw [expandFrom_append, Option.bind_eq_some_iff, hcomplete] at hwhole
  obtain ⟨first, hfirst, hrest⟩ := hwhole
  obtain ⟨second, hsecond, rfl⟩ := Option.map_eq_some_iff.mp hrest
  have hshort : str.chars.length + str'.chars.length < 2 ^ 16 := by
    rw [← List.length_append]
    exact hprints.short
  have hfits : first.length + second.length ≤ 4095 := by
    rw [← List.length_append]
    exact hprints.fits
  have hprints₁ : PrintfCall.Prints ⟨str, args⟩ first :=
    ⟨hfirst, show str.chars.length < 2 ^ 16 by omega, by omega⟩
  have hprints₂ : PrintfCall.Prints ⟨str', args.drop (argCount false str.chars)⟩ second :=
    ⟨hsecond, show str'.chars.length < 2 ^ 16 by omega, by omega⟩
  rw [hprints.printf_eq, printfs_eq (.cons hprints₁ (.cons hprints₂ .nil)), List.flatten_cons,
    List.flatten_cons, List.flatten_nil, List.append_nil]

end Console

/-- `%d!` and `%s`, the second printing a string that looks like a directive. -/
theorem printf_append_number : printf smallScreen smallFont (fun _ => 0xff) (fun _ => 0xff) smallConsole
      ⟨numberFormat.append (cstring "%s") (by decide),
        [.num 42, .str (cstring "%d")]⟩ =
    printfs smallScreen smallFont (fun _ _ => 0xff) (fun _ _ => 0xff) 1 smallConsole
      [⟨numberFormat, [.num 42, .str (cstring "%d")]⟩,
        ⟨(cstring "%s"), [.str (cstring "%d")]⟩] :=
  printf_append (by decide) (by decide)
    (show PrintfCall.Prints _ [52, 50, 33, 37, 100] from ⟨by decide, by decide, by decide⟩)
    (fun _ _ => 0xff) fun _ _ => 0xff

/-! ### Lines -/

def newLineByte : UInt8 := UInt8.ofNat '\n'.toNat

/-- The cells a byte takes on a line. -/
def byteWidth (c : UInt8) : Nat := if c = UInt8.ofNat '\t'.toNat then 3 else 1

def textWidth (l : List UInt8) : Nat := (l.map byteWidth).sum

/-- A byte of a line: one of ASCII, and no new line. -/
def LineByte (c : UInt8) : Prop := c ≠ newLineByte ∧ c.toNat < 0x80

instance (c : UInt8) : Decidable (LineByte c) := inferInstanceAs (Decidable (_ ∧ _))

/-- One line of output, that leaves the last cell of its line free. -/
def IsLine (columns : Nat) (out : List UInt8) : Prop :=
  ∃ body, out = body ++ [newLineByte] ∧ (∀ c ∈ body, LineByte c) ∧ textWidth body < columns

section Lines
variable {columns pos k : Nat} {c : UInt8} {l : List UInt8} {out : List UInt8}
  {outs : List (List UInt8)} {cell : Nat × UInt16}

theorem charArgument_toNat_eq {n : Nat} (hn : n < 0x80) :
    (charArgument c).toNat = n ↔ c = UInt8.ofNat n := by
  have hc := c.toNat_lt
  rw [charArgument_toNat, ← UInt8.toNat_inj, UInt8.toNat_ofNat', Nat.mod_eq_of_lt (by omega)]
  split_ifs
  · exact Iff.rfl
  · omega

theorem textAdvance_of_byte (hc : c ≠ newLineByte) :
    textAdvance columns pos (charArgument c) = pos + byteWidth c := by
  have htab_iff : (charArgument c).toNat = '\t'.toNat ↔ c = UInt8.ofNat '\t'.toNat :=
    charArgument_toNat_eq (by decide)
  unfold textAdvance byteWidth
  rw [if_neg fun h => hc ((charArgument_toNat_eq (by decide)).mp h)]
  by_cases htab : c = UInt8.ofNat '\t'.toNat
  · rw [if_pos (htab_iff.mpr htab), if_pos htab]
  · rw [if_neg fun h => htab (htab_iff.mp h), if_neg htab]

theorem textAdvance_newLineByte :
    textAdvance columns pos (charArgument newLineByte) = (pos / columns + 1) * columns :=
  if_pos ((charArgument_toNat_eq (by decide)).mpr rfl)

theorem textPosition_append (chars chars' : List UInt16) : textPosition columns pos (chars ++ chars') =
    textPosition columns (textPosition columns pos chars) chars' := List.foldl_append

theorem placed_append (chars chars' : List UInt16) : placed columns pos (chars ++ chars') =
    placed columns pos chars ++ placed columns (textPosition columns pos chars) chars' := by
  induction chars generalizing pos with
  | nil => rfl
  | cons chr chars ih =>
      rw [List.cons_append, placed, placed, ih, textPosition_cons, List.append_assoc]

theorem byteWidth_pos : 0 < byteWidth c := by
  unfold byteWidth
  split_ifs
  · decide
  · decide

/-- A text without a new line takes the cells of its width. -/
theorem placed_body (h : ∀ c ∈ l, LineByte c) :
    textPosition columns pos (l.map charArgument) = pos + textWidth l ∧
      ∀ cell ∈ placed columns pos (l.map charArgument), cell.1 < pos + textWidth l := by
  induction l generalizing pos with
  | nil => exact ⟨rfl, fun cell hcell => absurd hcell List.not_mem_nil⟩
  | cons c l ih =>
      have hc : c ≠ newLineByte := (h c List.mem_cons_self).1
      have hpos : 0 < byteWidth c := byteWidth_pos
      obtain ⟨hend, hcells⟩ : textPosition columns (pos + byteWidth c) (l.map charArgument) =
          pos + byteWidth c + textWidth l ∧ _ := ih fun c' hc' => h c' (List.mem_cons_of_mem c hc')
      have hwidth : textWidth (c :: l) = byteWidth c + textWidth l := by
        rw [textWidth, textWidth, List.map_cons, List.sum_cons]
      rw [List.map_cons, textPosition_cons, placed, textAdvance_of_byte hc, hwidth, ← Nat.add_assoc]
      refine ⟨hend, ?_⟩
      intro cell hcell
      obtain hfirst | hrest := List.mem_append.mp hcell
      · split_ifs at hfirst
        · rw [List.mem_singleton.mp hfirst]
          show pos < pos + byteWidth c + textWidth l
          omega
        · exact absurd hfirst List.not_mem_nil
      · exact hcells cell hrest

/-- A line from the start of a line stays on it and ends at the start of the next. -/
theorem IsLine.placed (h : IsLine columns out) :
    textPosition columns (k * columns) (out.map charArgument) = (k + 1) * columns ∧
      ∀ cell ∈ placed columns (k * columns) (out.map charArgument), cell.1 < (k + 1) * columns := by
  obtain ⟨body, rfl, hbody, hwidth⟩ := h
  obtain ⟨hend, hcells⟩ : textPosition columns (k * columns) (body.map charArgument) =
      k * columns + textWidth body ∧ _ := placed_body hbody
  have hline : (k * columns + textWidth body) / columns = k := linear_div hwidth
  have hnext : (k + 1) * columns = k * columns + columns := by rw [Nat.add_mul, Nat.one_mul]
  rw [List.map_append, textPosition_append, placed_append, hend, List.map_singleton]
  constructor
  · show textAdvance columns _ (charArgument newLineByte) = _
    rw [textAdvance_newLineByte, hline]
  · intro cell hcell
    obtain hfirst | hlast := List.mem_append.mp hcell
    · have hlt := hcells cell hfirst
      omega
    · rw [MyOSKernel.placed, if_neg, MyOSKernel.placed] at hlast
      · exact absurd hlast List.not_mem_nil
      · rw [drawn_charArgument]
        decide

/-- So lines take one line of the screen each. -/
theorem lines_placed (h : ∀ out ∈ outs, IsLine columns out) :
    textPosition columns (k * columns) (outs.flatten.map charArgument) =
        (k + outs.length) * columns ∧
      ∀ cell ∈ placed columns (k * columns) (outs.flatten.map charArgument),
        cell.1 < (k + outs.length) * columns := by
  induction outs generalizing k with
  | nil => exact ⟨rfl, fun cell hcell => absurd hcell List.not_mem_nil⟩
  | cons out outs ih =>
      obtain ⟨hend, hcells⟩ := (h out List.mem_cons_self).placed (k := k)
      obtain ⟨hend', hcells'⟩ := ih (k := k + 1) fun out' hout => h out' (List.mem_cons_of_mem out hout)
      have hlength : k + (out :: outs).length = k + 1 + outs.length := by
        rw [List.length_cons]
        omega
      have hle : (k + 1) * columns ≤ (k + 1 + outs.length) * columns :=
        Nat.mul_le_mul_right _ (by omega)
      rw [List.flatten_cons, List.map_append, textPosition_append, placed_append, hend, hlength]
      refine ⟨hend', ?_⟩
      intro cell hcell
      obtain hfirst | hrest := List.mem_append.mp hcell
      · exact (hcells cell hfirst).trans_le hle
      · exact hcells' cell hrest

end Lines

/-- What is known of an argument: a string on one line, of at most so many cells, or a number. -/
inductive ArgShape
  | str (width : Nat)
  | num

def PrintfArg.HasShape : PrintfArg → ArgShape → Prop
  | .str s, .str width => textWidth s.chars ≤ width ∧ ∀ c ∈ s.chars, LineByte c
  | .num _, .num => True
  | _, _ => False

/-- A bound of the width of a directive's text, and the shapes left. A 64-bit number has at most twenty
digits. -/
def directiveWidth (c : UInt8) (shapes : List ArgShape) : Option (Nat × List ArgShape) :=
  if c = UInt8.ofNat 's'.toNat then
    match shapes with
    | .str width :: shapes => some (width, shapes)
    | _ => none
  else if c = UInt8.ofNat 'd'.toNat ∨ c = UInt8.ofNat 'p'.toNat then
    match shapes with
    | .num :: shapes => some (20, shapes)
    | _ => none
  else some (0, shapes)

/-- A bound of the width of a format's output, if arguments of these shapes match it. -/
def widthFrom (isPercent : Bool) : List UInt8 → List ArgShape → Option Nat
  | [], _ => some 0
  | c :: format, shapes =>
    if isPercent then
      (directiveWidth c shapes).bind fun r => (widthFrom false format r.2).map (r.1 + ·)
    else if c = percent then widthFrom true format shapes
    else (widthFrom false format shapes).map (byteWidth c + ·)

/-- The output is one line whatever the arguments: the new line stands at the end, after less than
`columns` cells. -/
def lineFormat (columns : Nat) (format : List UInt8) (shapes : List ArgShape) : Bool :=
  format = format.dropLast ++ [newLineByte] && format.dropLast.all (LineByte ·) &&
    !afterPercent false format.dropLast &&
    (widthFrom false format.dropLast shapes).any (· < columns) && format.length < 2 ^ 16

section Shapes
variable {c : UInt8} {format : List UInt8} {args : List PrintfArg} {shapes : List ArgShape}
  {isPercent : Bool} {width columns : Nat}

theorem textWidth_append (l l' : List UInt8) : textWidth (l ++ l') = textWidth l + textWidth l' := by
  rw [textWidth, List.map_append, List.sum_append, textWidth, textWidth]

theorem textWidth_cons (l : List UInt8) : textWidth (c :: l) = byteWidth c + textWidth l := by
  rw [textWidth, textWidth, List.map_cons, List.sum_cons]

theorem numeral_line (base : Nat) {n : Nat} (hbase : 10 ≤ base) (hbase' : base ≤ 16) (hn : n < 2 ^ 64) :
    textWidth (numeral base n) ≤ 20 ∧ ∀ c ∈ numeral base n, LineByte c := by
  have hdigit : ∀ c ∈ numeral base n, byteWidth c = 1 ∧ LineByte c := by
    intro c hc
    rw [← digitString_eq_numeral (by omega) hbase'] at hc
    have hdigits : ∃ d < 16, c = digitByte d := by
      unfold digitString at hc
      split_ifs at hc
      · exact ⟨0, by decide, List.mem_singleton.mp hc⟩
      · obtain ⟨d, hd, rfl⟩ := List.mem_map.mp (List.mem_reverse.mp hc)
        exact ⟨d, (Nat.digits_lt_base (by omega) hd).trans_le hbase', rfl⟩
    have hall : ∀ d < 16, byteWidth (digitByte d) = 1 ∧ LineByte (digitByte d) := by decide
    obtain ⟨d, hd, rfl⟩ := hdigits
    exact hall d hd
  have hlength := length_numeral_le hbase hn
  constructor
  · have hsum : textWidth (numeral base n) = (numeral base n).length := by
      rw [textWidth, List.map_congr_left fun c hc => (hdigit c hc).1, List.map_const',
        List.sum_replicate, smul_eq_mul, Nat.mul_one]
    rwa [hsum]
  · exact fun c hc => (hdigit c hc).2

/-- A directive's text keeps to its bound and to its line. -/
theorem directiveWidth_sound {r : Nat × List ArgShape}
    (hargs : List.Forall₂ PrintfArg.HasShape args shapes) (hwidth : directiveWidth c shapes = some r) :
    ∃ text args', directive c args = some (text, args') ∧ textWidth text ≤ r.1 ∧
      (∀ c ∈ text, LineByte c) ∧ List.Forall₂ PrintfArg.HasShape args' r.2 := by
  unfold directiveWidth at hwidth
  unfold directive
  by_cases hs : c = UInt8.ofNat 's'.toNat
  · rw [if_pos hs] at hwidth ⊢
    cases hargs with
    | nil => cases hwidth
    | @cons arg shape args shapes harg hargs =>
        cases shape with
        | num => cases hwidth
        | str width =>
            cases hwidth
            cases arg with
            | num n => exact absurd harg id
            | str str => exact ⟨str.chars, args, rfl, harg.1, harg.2, hargs⟩
  · rw [if_neg hs] at hwidth ⊢
    by_cases hdp : c = UInt8.ofNat 'd'.toNat ∨ c = UInt8.ofNat 'p'.toNat
    · rw [if_pos hdp] at hwidth
      cases hargs with
      | nil => cases hwidth
      | @cons arg shape args shapes harg hargs =>
          cases shape with
          | str width => cases hwidth
          | num =>
              cases hwidth
              cases arg with
              | str str => exact absurd harg id
              | num n =>
                  by_cases hd : c = UInt8.ofNat 'd'.toNat
                  · obtain ⟨hle, hline⟩ :=
                      numeral_line 10 (by decide) (by decide) n.toNat_lt
                    exact ⟨_, args, if_pos hd, hle, hline, hargs⟩
                  · obtain ⟨hle, hline⟩ :=
                      numeral_line 16 (by decide) (by decide) n.toNat_lt
                    rw [if_neg hd, if_pos (hdp.resolve_left hd)]
                    exact ⟨_, args, rfl, hle, hline, hargs⟩
    · rw [if_neg hdp] at hwidth
      cases hwidth
      obtain ⟨hd, hp⟩ := not_or.mp hdp
      rw [if_neg hd, if_neg hp]
      exact ⟨[], args, rfl, le_rfl, fun c hc => absurd hc List.not_mem_nil, hargs⟩

/-- Within the bound the format has an output, on one line. -/
theorem widthFrom_sound (hargs : List.Forall₂ PrintfArg.HasShape args shapes)
    (hformat : ∀ c ∈ format, LineByte c) (hwidth : widthFrom isPercent format shapes = some width) :
    ∃ out, expandFrom isPercent format args = some out ∧ textWidth out ≤ width ∧
      ∀ c ∈ out, LineByte c := by
  induction format generalizing isPercent args shapes width with
  | nil =>
      cases hwidth
      exact ⟨[], expandFrom_nil isPercent, le_rfl, fun c hc => absurd hc List.not_mem_nil⟩
  | cons c format ih =>
      have htail : ∀ c ∈ format, LineByte c := fun c' hc' => hformat c' (List.mem_cons_of_mem c hc')
      cases isPercent with
      | true =>
          rw [widthFrom, if_pos rfl, Option.bind_eq_some_iff] at hwidth
          obtain ⟨r, hr, hrest⟩ := hwidth
          obtain ⟨w, hw, rfl⟩ := Option.map_eq_some_iff.mp hrest
          obtain ⟨text, args', hdirective, htext, htext', hargs'⟩ := directiveWidth_sound hargs hr
          obtain ⟨out, hout, hle, hline⟩ := ih hargs' htail hw
          refine ⟨text ++ out, ?_, ?_, ?_⟩
          · rw [expandFrom_true_cons, hdirective, Option.bind_some, hout, Option.map_some]
          · rw [textWidth_append]
            omega
          · exact fun c' hc' => (List.mem_append.mp hc').elim (htext' c') (hline c')
      | false =>
          rw [widthFrom, if_neg Bool.false_ne_true] at hwidth
          by_cases hc : c = percent
          · rw [if_pos hc] at hwidth
            rw [hc, expandFrom_false_percent]
            exact ih hargs htail hwidth
          · rw [if_neg hc] at hwidth
            obtain ⟨w, hw, rfl⟩ := Option.map_eq_some_iff.mp hwidth
            obtain ⟨out, hout, hle, hline⟩ := ih hargs htail hw
            refine ⟨c :: out, ?_, ?_, ?_⟩
            · rw [expandFrom_false_cons hc, hout, Option.map_some]
            · rw [textWidth_cons]
              omega
            · exact List.forall_mem_cons.mpr ⟨hformat c List.mem_cons_self, hline⟩

/-- A checked format prints a line. -/
theorem lineFormat_sound {str : CString} (hargs : List.Forall₂ PrintfArg.HasShape args shapes)
    (hcheck : lineFormat columns str.chars shapes = true) (hcolumns : columns ≤ 4095) :
    ∃ out, PrintfCall.Prints ⟨str, args⟩ out ∧ IsLine columns out := by
  simp only [lineFormat, Bool.and_eq_true, decide_eq_true_eq, Bool.not_eq_true',
    Option.any_eq_true, List.all_eq_true] at hcheck
  obtain ⟨⟨⟨⟨hsplit, hbody⟩, hcomplete⟩, width, hwidth, hlt⟩, hshort⟩ := hcheck
  obtain ⟨out, hout, hle, hline⟩ := widthFrom_sound hargs hbody hwidth
  refine ⟨out ++ [newLineByte], ⟨?_, hshort, ?_⟩, out, rfl, hline, by omega⟩
  · have hfrom : expandFrom false str.chars args = some (out ++ [newLineByte]) := by
      rw [hsplit, expandFrom_append, hout, Option.bind_some, hcomplete,
        expandFrom_false_cons (by decide), expandFrom_nil]
      rfl
    exact hfrom
  · have hlength : out.length ≤ textWidth out := by
      rw [textWidth, ← List.length_map (f := byteWidth)]
      apply List.length_le_sum_of_one_le
      intro w hw
      obtain ⟨c, -, rfl⟩ := List.mem_map.mp hw
      exact byteWidth_pos
    rw [List.length_append, List.length_singleton]
    omega

end Shapes

end MyOSKernel
