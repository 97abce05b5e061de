import MyOSKernel.Strings

/-! `Console__printf`, which expands a format into a buffer on its stack and prints it. The write
index and the loop counter have 16 bits, the lengths 64. The loop is a two-state scanner of the
format; its output is the expansion defined by recursion on the format. -/

namespace MyOSKernel

/-- An argument of the variable list. -/
inductive PrintfArg
  | str (s : CString)
  | num (n : UInt64)

/-- The local variables of `Console__printf`: `buf`, `temp_buf`, the loop's and the arguments left.
`temp_len` is set before each use. -/
structure PrintfState where
  buf : Memory
  tempBuf : Memory
  isPercent : Bool
  i : Nat
  j : Nat
  args : List PrintfArg

def percent : UInt8 := UInt8.ofNat '%'.toNat

/-- `temp_len = str_len(src); memcpy(buf + j, src, temp_len); j += temp_len`. -/
def appendString (s : PrintfState) (src : Nat → UInt8) : Option PrintfState :=
  (strLen src).map fun tempLen =>
    { s with buf := memcpy s.buf s.j src 0 tempLen, j := (s.j + tempLen) % 2 ^ 16 }

/-- `%d` and `%p`: the numeral goes through `temp_buf`. -/
def appendNumber (s : PrintfState) (num : UInt64) (base : Nat) : Option PrintfState :=
  (itoa s.tempBuf num.toNat base).bind fun tempBuf =>
    appendString { s with tempBuf := tempBuf } tempBuf.byte

/-- The `switch` on the character after a `%`. Without a matching argument `va_arg` has no value. -/
def printfDirective (s : PrintfState) (c : UInt8) : Option PrintfState :=
  if c = UInt8.ofNat 's'.toNat then
    match s.args with
    | .str arg :: args => appendString { s with args := args } arg.byte
    | _ => none
  else if c = UInt8.ofNat 'd'.toNat then
    match s.args with
    | .num arg :: args => appendNumber { s with args := args } arg 10
    | _ => none
  else if c = UInt8.ofNat 'p'.toNat then
    match s.args with
    | .num arg :: args => appendNumber { s with args := args } arg 16
    | _ => none
  else some s

/-- The body of the loop at the character `c`. -/
def printfRound (s : PrintfState) (c : UInt8) : Option PrintfState :=
  if s.isPercent then (printfDirective s c).map fun s => { s with isPercent := false }
  else if c = percent then some { s with isPercent := true }
  else some { s with buf := s.buf.store s.j c, j := (s.j + 1) % 2 ^ 16 }

/-- `for (uint16_t i = 0; i < len; i++)`. -/
def printfLoop (str : CString) (len : Nat) : Nat → PrintfState → Option PrintfState
  | 0, _ => none
  | fuel + 1, s =>
    if s.i < len then
      (printfRound s (str.byte s.i)).bind fun s =>
        printfLoop str len fuel { s with i := (s.i + 1) % 2 ^ 16 }
    else some s

/-- `while (*str != '\0')`: the characters `Console__print_str` prints. -/
def printStrFrom (str : Nat → UInt8) (p : Nat) : Nat → Option (List UInt8)
  | 0 => none
  | fuel + 1 =>
    if str p ≠ 0 then (printStrFrom str (p + 1) fuel).map (str p :: ·) else some []

def printStr (str : Nat → UInt8) : Option (List UInt8) := printStrFrom str 0 (2 ^ 64)

/-- The variables before the loop, over whatever the stack held. -/
def printfStart (buf tempBuf : Nat → UInt8) (args : List PrintfArg) : PrintfState where
  buf := memset ⟨buf, []⟩ 0 0 4096
  tempBuf := memset ⟨tempBuf, []⟩ 0 0 64
  isPercent := false
  i := 0
  j := 0
  args := args

/-- `Console__printf`, with the characters it prints. -/
def consolePrintf (buf tempBuf : Nat → UInt8) (str : CString) (args : List PrintfArg) (fuel : Nat) :
    Option (PrintfState × List UInt8) :=
  (strLen str.byte).bind fun len =>
    (printfLoop str len fuel (printfStart buf tempBuf args)).bind fun s =>
      (printStr (s.buf.store s.j 0).byte).map fun printed =>
        ({ s with buf := s.buf.store s.j 0 }, printed)

/-- What a directive stands for, and the arguments left. -/
def directive (c : UInt8) (args : List PrintfArg) : Option (List UInt8 × List PrintfArg) :=
  if c = UInt8.ofNat 's'.toNat then
    match args with
    | .str s :: args => some (s.chars, args)
    | _ => none
  else if c = UInt8.ofNat 'd'.toNat then
    match args with
    | .num n :: args => some (numeral 10 n.toNat, args)
    | _ => none
  else if c = UInt8.ofNat 'p'.toNat then
    match args with
    | .num n :: args => some (numeral 16 n.toNat, args)
    | _ => none
  else some ([], args)

/-- The expansion of a format, none where the arguments do not match its directives. -/
def expansion : List UInt8 → List PrintfArg → Option (List UInt8)
  | [], _ => some []
  | [c], _ => some (if c = percent then [] else [c])
  | c :: d :: format, args =>
    if c = percent then
      (directive d args).bind fun r => (expansion format r.2).map (r.1 ++ ·)
    else (expansion (d :: format) args).map (c :: ·)

/-- The expansion from a character on, after a `%` or not. -/
def expandFrom (isPercent : Bool) (format : List UInt8) (args : List PrintfArg) :
    Option (List UInt8) :=
  expansion (if isPercent then percent :: format else format) args

section Expansion
variable {c : UInt8} {format : List UInt8} {args : List PrintfArg}

theorem expandFrom_nil (isPercent : Bool) : expandFrom isPercent [] args = some [] := by
  cases isPercent with
  | false => rfl
  | true => rfl

theorem expandFrom_true_cons : expandFrom true (c :: format) args =
    (directive c args).bind fun r => (expandFrom false format r.2).map (r.1 ++ ·) := by
  rw [expandFrom, if_pos rfl, expansion, if_pos rfl]
  rfl

theorem expandFrom_false_percent : expandFrom false (percent :: format) args =
    expandFrom true format args := rfl

theorem expandFrom_false_cons (hc : c ≠ percent) : expandFrom false (c :: format) args =
    (expandFrom false format args).map (c :: ·) := by
  cases format with
  | nil =>
      show some (if c = percent then [] else [c]) = some [c]
      rw [if_neg hc]
  | cons d format =>
      show expansion (c :: d :: format) args = _
      rw [expansion, if_neg hc]
      rfl

/-- What a directive stands for is a string, as its arguments and the numerals are. -/
theorem directive_nonzero {r : List UInt8 × List PrintfArg} (h : directive c args = some r) :
    ∀ x ∈ r.1, x ≠ 0 := by
  unfold directive at h
  split at h
  · split at h
    · rename_i s args'
      cases h
      exact s.nonzero
    · cases h
  · split at h
    · split at h
      · cases h
        exact numeral_nonzero (by decide) (by decide)
      · cases h
    · split at h
      · split at h
        · cases h
          exact numeral_nonzero (by decide) (by decide)
        · cases h
      · cases h
        simp

theorem expandFrom_nonzero {isPercent : Bool} {out : List UInt8} (hformat : ∀ x ∈ format, x ≠ 0)
    (h : expandFrom isPercent format args = some out) : ∀ x ∈ out, x ≠ 0 := by
  induction format generalizing isPercent args out with
  | nil =>
      rw [expandFrom_nil] at h
      cases h
      simp
  | cons c format ih =>
      have htail : ∀ x ∈ format, x ≠ 0 := fun x hx => hformat x (List.mem_cons_of_mem c hx)
      cases isPercent with
      | true =>
          rw [expandFrom_true_cons, Option.bind_eq_some_iff] at h
          obtain ⟨r, hr, hrest⟩ := h
          obtain ⟨rest, hexp, rfl⟩ := Option.map_eq_some_iff.mp hrest
          intro x hx
          obtain hx | hx := List.mem_append.mp hx
          · exact directive_nonzero hr x hx
          · exact ih htail hexp x hx
      | false =>
          by_cases hc : c = percent
          · rw [hc, expandFrom_false_percent] at h
            exact ih htail h
          · rw [expandFrom_false_cons hc] at h
            obtain ⟨rest, hexp, rfl⟩ := Option.map_eq_some_iff.mp h
            intro x hx
            obtain rfl | hx := List.mem_cons.mp hx
            · exact hformat x List.mem_cons_self
            · exact ih htail hexp x hx

end Expansion

/-- The buffer holds the output so far while it fits, and has been overrun once it does not. -/
structure Written (buf : Memory) (j : Nat) (done : List UInt8) : Prop where
  index : j = done.length % 2 ^ 16
  holds : done.length ≤ 4096 → buf.Holds 0 done
  inside : done.length ≤ 4096 → ∀ a ∈ buf.writes, a < 4096
  overrun : 4096 < done.length → 4096 ∈ buf.writes

section Buffer
variable {buf : Memory} {j : Nat} {done text : List UInt8} {src : Nat → UInt8}

/-- A copy to the write index appends to the output. -/
theorem Written.memcpy (h : Written buf j done) (htext : text.length < 2 ^ 64)
    (hsrc : ∀ k (hk : k < text.length), src k = text[k]) :
    Written (memcpy buf j src 0 text.length) ((j + text.length) % 2 ^ 16) (done ++ text) := by
  have hindex := h.index
  have hlt : j < 2 ^ 64 := by omega
  have hfits : (done ++ text).length ≤ 4096 → done.length ≤ 4096 ∧ j = done.length ∧
      done.length + text.length ≤ 4096 := by
    intro hle
    rw [List.length_append] at hle
    exact ⟨by omega, by omega, hle⟩
  exact {
    index := by
      rw [List.length_append]
      omega
    holds := by
      intro hle
      obtain ⟨hdone, rfl, hsum⟩ := hfits hle
      apply Memory.Holds.append
      · apply (h.holds hdone).congr
        intro a ha
        have := ha.2
        exact memcpy_byte_of_notMem (by omega) fun hc => by have := hc.1; omega
      · intro k hk
        rw [Nat.zero_add, memcpy_byte_of_lt (by omega) (by omega) hk, Nat.zero_add, hsrc k hk]
    inside := by
      intro hle a ha
      obtain ⟨hdone, rfl, hsum⟩ := hfits hle
      obtain ⟨k, hk, heq⟩ | hold := (mem_writes_memcpy hlt).mp ha
      · omega
      · exact h.inside hdone a hold
    overrun := by
      intro hlong
      rw [List.length_append] at hlong
      apply (mem_writes_memcpy hlt).mpr
      by_cases hdone : 4096 < done.length
      · exact Or.inr (h.overrun hdone)
      · exact Or.inl ⟨4096 - done.length, by omega, by omega⟩ }

theorem Written.store (h : Written buf j done) (c : UInt8) :
    Written (buf.store j c) ((j + 1) % 2 ^ 16) (done ++ [c]) := by
  have htext : [c].length < 2 ^ 64 := by simp
  have hsrc : ∀ k (hk : k < [c].length), (fun _ => c) k = [c][k] := by
    intro k hk
    obtain rfl : k = 0 := by simpa using hk
    rfl
  have hone := h.memcpy htext hsrc
  rwa [List.length_singleton, MyOSKernel.memcpy, MyOSKernel.memcpy] at hone

end Buffer

section Loop
variable {s : PrintfState} {done text : List UInt8} {c : UInt8} {format rest : List UInt8}

/-- The buffers after some output. -/
structure Expanded (s : PrintfState) (done : List UInt8) : Prop where
  buf : Written s.buf s.j done
  tempBuf : ∀ a ∈ s.tempBuf.writes, a < 64

theorem appendString_spec (h : Expanded s done) {src : Nat → UInt8}
    (hlen : strLen src = some text.length) (htext : text.length < 2 ^ 64)
    (hsrc : ∀ k (hk : k < text.length), src k = text[k]) :
    ∃ s', appendString s src = some s' ∧ s'.args = s.args ∧ s'.i = s.i ∧
      Expanded s' (done ++ text) := by
  refine ⟨{ s with
    buf := memcpy s.buf s.j src 0 text.length
    j := (s.j + text.length) % 2 ^ 16 }, ?_, rfl, rfl, h.buf.memcpy htext hsrc, h.tempBuf⟩
  rw [appendString, hlen, Option.map_some]

theorem appendNumber_spec (h : Expanded s done) (num : UInt64) {base : Nat} (hbase : 10 ≤ base)
    (hbase' : base ≤ 16) :
    ∃ s', appendNumber s num base = some s' ∧ s'.args = s.args ∧ s'.i = s.i ∧
      Expanded s' (done ++ numeral base num.toNat) := by
  obtain ⟨tempBuf, hrun, hholds, hend, hwrites⟩ :=
    itoa_spec (m := s.tempBuf) (show 1 < base by omega) hbase' num.toNat_lt
  have hlen := length_numeral_le hbase num.toNat_lt
  have hnonzero := numeral_nonzero (n := num.toNat) (show 1 < base by omega) hbase'
  have hsrc : ∀ k (hk : k < (numeral base num.toNat).length),
      tempBuf.byte k = (numeral base num.toNat)[k] := by
    intro k hk
    rw [← hholds k hk, Nat.zero_add]
  have hstr : strLen tempBuf.byte = some (numeral base num.toNat).length := by
    apply strLen_eq (by omega) _ hend
    intro k hk
    rw [hsrc k hk]
    exact hnonzero _ (List.getElem_mem hk)
  have htemp : Expanded { s with tempBuf := tempBuf } done := by
    refine ⟨h.buf, ?_⟩
    intro a ha
    obtain hnew | hold := (hwrites a).mp ha
    · show a < 64
      omega
    · exact h.tempBuf a hold
  obtain ⟨s', hs', hargs, hi, hexp⟩ := appendString_spec htemp hstr (by omega) hsrc
  exact ⟨s', by rw [appendNumber, hrun, Option.bind_some, hs'], hargs, hi, hexp⟩

/-- The `switch` appends what the directive stands for. -/
theorem printfDirective_spec (h : Expanded s done) {args : List PrintfArg}
    (hdir : directive c s.args = some (text, args)) :
    ∃ s', printfDirective s c = some s' ∧ s'.args = args ∧ s'.i = s.i ∧
      Expanded s' (done ++ text) := by
  unfold directive at hdir
  unfold printfDirective
  by_cases hstr : c = UInt8.ofNat 's'.toNat
  · rw [if_pos hstr] at hdir ⊢
    cases hargs : s.args with
    | nil => simp [hargs] at hdir
    | cons arg args' =>
        cases arg with
        | num n => simp [hargs] at hdir
        | str arg =>
            obtain ⟨rfl, rfl⟩ : arg.chars = text ∧ args' = args := by simpa [hargs] using hdir
            have hs : Expanded { s with args := args' } done := ⟨h.buf, h.tempBuf⟩
            exact appendString_spec hs arg.strLen_byte arg.fits fun k hk => arg.byte_of_lt hk
  · rw [if_neg hstr] at hdir ⊢
    by_cases hdec : c = UInt8.ofNat 'd'.toNat
    · rw [if_pos hdec] at hdir ⊢
      cases hargs : s.args with
      | nil => simp [hargs] at hdir
      | cons arg args' =>
          cases arg with
          | str arg => simp [hargs] at hdir
          | num n =>
              obtain ⟨rfl, rfl⟩ : numeral 10 n.toNat = text ∧ args' = args := by
                simpa [hargs] using hdir
              have hs : Expanded { s with args := args' } done := ⟨h.buf, h.tempBuf⟩
              exact appendNumber_spec hs n (by decide) (by decide)
    · rw [if_neg hdec] at hdir ⊢
      by_cases hhex : c = UInt8.ofNat 'p'.toNat
      · rw [if_pos hhex] at hdir ⊢
        cases hargs : s.args with
        | nil => simp [hargs] at hdir
        | cons arg args' =>
            cases arg with
            | str arg => simp [hargs] at hdir
            | num n =>
                obtain ⟨rfl, rfl⟩ : numeral 16 n.toNat = text ∧ args' = args := by
                  simpa [hargs] using hdir
                have hs : Expanded { s with args := args' } done := ⟨h.buf, h.tempBuf⟩
                exact appendNumber_spec hs n (by decide) (by decide)
      · rw [if_neg hhex] at hdir ⊢
        obtain ⟨rfl, rfl⟩ : [] = text ∧ s.args = args := by simpa using hdir
        exact ⟨s, rfl, rfl, rfl, by rwa [List.append_nil]⟩

/-- A round appends the text its character stands for. -/
theorem printfRound_spec (h : Expanded s done)
    (hexp : expandFrom s.isPercent (c :: format) s.args = some rest) :
    ∃ s' text rest', printfRound s c = some s' ∧ s'.i = s.i ∧ rest = text ++ rest' ∧
      expandFrom s'.isPercent format s'.args = some rest' ∧ Expanded s' (done ++ text) := by
  unfold printfRound
  cases hpercent : s.isPercent with
  | true =>
      rw [hpercent, expandFrom_true_cons, Option.bind_eq_some_iff] at hexp
      obtain ⟨⟨text, args⟩, hdir, hrest⟩ := hexp
      obtain ⟨rest', hrest', rfl⟩ := Option.map_eq_some_iff.mp hrest
      obtain ⟨s', hs', hargs, hi, hexpanded⟩ := printfDirective_spec h hdir
      refine ⟨{ s' with isPercent := false }, text, rest', ?_, hi, rfl, ?_,
        hexpanded.buf, hexpanded.tempBuf⟩
      · rw [if_pos rfl, hs', Option.map_some]
      · rw [← hrest', ← hargs]
  | false =>
      rw [hpercent] at hexp
      rw [if_neg (by decide)]
      by_cases hc : c = percent
      · rw [hc, expandFrom_false_percent] at hexp
        refine ⟨{ s with isPercent := true }, [], rest, by rw [if_pos hc], rfl, rfl, hexp, ?_⟩
        rw [List.append_nil]
        exact ⟨h.buf, h.tempBuf⟩
      · rw [expandFrom_false_cons hc] at hexp
        obtain ⟨rest', hrest', rfl⟩ := Option.map_eq_some_iff.mp hexp
        refine ⟨{ s with
          isPercent := false
          buf := s.buf.store s.j c
          j := (s.j + 1) % 2 ^ 16 }, [c], rest', ?_, rfl, rfl, hrest', h.buf.store c, h.tempBuf⟩
        rw [if_neg hc]

end Loop

section Run
variable {str : CString} {s s' : PrintfState} {out : List UInt8} {fuel : Nat}

/-- The loop between two rounds: the output so far and the expansion of the rest make up `out`. -/
structure Scanned (format out : List UInt8) (s : PrintfState) : Prop where
  position : s.i ≤ format.length
  split : ∃ done rest, expandFrom s.isPercent (format.drop s.i) s.args = some rest ∧
    out = done ++ rest ∧ Expanded s done

theorem Scanned.round (h : Scanned str.chars out s) (hshort : str.chars.length < 2 ^ 16)
    (hi : s.i < str.chars.length) :
    ∃ s', printfRound s (str.byte s.i) = some s' ∧ s'.i = s.i ∧
      Scanned str.chars out { s' with i := (s'.i + 1) % 2 ^ 16 } := by
  obtain ⟨done, rest, hexp, hout, hdone⟩ := h.split
  rw [List.drop_eq_getElem_cons hi, ← str.byte_of_lt hi] at hexp
  obtain ⟨s', text, rest', hround, hsame, hrest, hexp', hdone'⟩ := printfRound_spec hdone hexp
  have hnext : (s'.i + 1) % 2 ^ 16 = s.i + 1 := by omega
  refine ⟨s', hround, hsame, ?_, done ++ text, rest', ?_, ?_, hdone'.buf, hdone'.tempBuf⟩
  · show (s'.i + 1) % 2 ^ 16 ≤ _
    omega
  · show expandFrom s'.isPercent (str.chars.drop ((s'.i + 1) % 2 ^ 16)) s'.args = _
    rw [hnext]
    exact hexp'
  · rw [hout, hrest, List.append_assoc]

/-- The loop leaves the expansion in the buffer. -/
theorem printfLoop_spec (h : Scanned str.chars out s) (hshort : str.chars.length < 2 ^ 16)
    (hrun : printfLoop str str.chars.length fuel s = some s') : Expanded s' out := by
  induction fuel generalizing s with
  | zero => cases hrun
  | succ fuel ih =>
      rw [printfLoop] at hrun
      by_cases hi : s.i < str.chars.length
      · obtain ⟨next, hround, -, hnext⟩ := h.round hshort hi
        rw [if_pos hi, hround, Option.bind_some] at hrun
        exact ih hnext hrun
      · obtain ⟨done, rest, hexp, hout, hdone⟩ := h.split
        rw [List.drop_eq_nil_of_le (by omega), expandFrom_nil] at hexp
        cases hexp
        rw [if_neg hi] at hrun
        cases hrun
        rwa [hout, List.append_nil]

theorem printfLoop_terminates (h : Scanned str.chars out s) (hshort : str.chars.length < 2 ^ 16)
    (hfuel : str.chars.length < s.i + fuel) :
    ∃ s', printfLoop str str.chars.length fuel s = some s' := by
  induction fuel generalizing s with
  | zero =>
      have := h.position
      omega
  | succ fuel ih =>
      rw [printfLoop]
      by_cases hi : s.i < str.chars.length
      · obtain ⟨next, hround, hsame, hnext⟩ := h.round hshort hi
        rw [if_pos hi, hround, Option.bind_some]
        apply ih hnext
        show _ < (next.i + 1) % 2 ^ 16 + fuel
        omega
      · exact ⟨s, if_neg hi⟩

/-- The counter of 16 bits never reaches a length beyond them. -/
theorem printfLoop_of_long {len : Nat} (hlong : 2 ^ 16 ≤ len) (hi : s.i < 2 ^ 16) :
    printfLoop str len fuel s = none := by
  induction fuel generalizing s with
  | zero => rfl
  | succ fuel ih =>
      rw [printfLoop, if_pos (by omega)]
      cases printfRound s (str.byte s.i) with
      | none => rfl
      | some next => exact ih (Nat.mod_lt _ (by decide))

theorem Expanded.nil {s : PrintfState} (hj : s.j = 0) (hbuf : ∀ a ∈ s.buf.writes, a < 4096)
    (htemp : ∀ a ∈ s.tempBuf.writes, a < 64) : Expanded s [] := by
  refine ⟨⟨hj, ?_, fun _ => hbuf, ?_⟩, htemp⟩
  · intro _ k hk
    exact absurd hk (Nat.not_lt_zero k)
  · intro h
    exact absurd h (Nat.not_lt_zero 4096)

theorem scanned_printfStart (buf tempBuf : Nat → UInt8) {args : List PrintfArg}
    (hout : expansion str.chars args = some out) :
    Scanned str.chars out (printfStart buf tempBuf args) := by
  refine ⟨Nat.zero_le _, [], out, hout, rfl, Expanded.nil rfl ?_ ?_⟩
  · intro a ha
    simp only [printfStart] at ha
    obtain ⟨k, hk, heq⟩ | hold := (mem_writes_memset (by decide)).mp ha
    · omega
    · exact absurd hold List.not_mem_nil
  · intro a ha
    simp only [printfStart] at ha
    obtain ⟨k, hk, heq⟩ | hold := (mem_writes_memset (by decide)).mp ha
    · omega
    · exact absurd hold List.not_mem_nil

end Run

section Output
variable {str : CString} {args : List PrintfArg} {out l : List UInt8} {byte : Nat → UInt8}
  {fuel : Nat}

theorem printStrFrom_eq {p : Nat} (hchars : ∀ k (hk : k < l.length), byte (p + k) = l[k])
    (hnonzero : ∀ c ∈ l, c ≠ 0) (hend : byte (p + l.length) = 0) (hfuel : l.length < fuel) :
    printStrFrom byte p fuel = some l := by
  induction l generalizing p fuel with
  | nil =>
      cases fuel with
      | zero => omega
      | succ fuel =>
          rw [List.length_nil, Nat.add_zero] at hend
          rw [printStrFrom, if_neg (not_not.mpr hend)]
  | cons c l ih =>
      cases fuel with
      | zero => omega
      | succ fuel =>
          rw [List.length_cons] at hend hfuel
          have hhead : byte p = c := hchars 0 (by simp)
          have htail : printStrFrom byte (p + 1) fuel = some l := by
            apply ih
            · intro k hk
              rw [show p + 1 + k = p + (k + 1) by omega, hchars (k + 1) (by simpa using hk),
                List.getElem_cons_succ]
            · exact fun x hx => hnonzero x (List.mem_cons_of_mem c hx)
            · rw [← hend]
              congr 1
              omega
            · omega
          rw [printStrFrom, hhead, if_pos (hnonzero c List.mem_cons_self), htail, Option.map_some]

/-- A string is printed up to its terminator. -/
theorem CString.printStr_byte (str : CString) : printStr str.byte = some str.chars := by
  apply printStrFrom_eq _ str.nonzero _ str.fits
  · intro k hk
    rw [Nat.zero_add, str.byte_of_lt hk]
  · rw [Nat.zero_add, str.byte_length]

theorem expansion_nonzero (hout : expansion str.chars args = some out) : ∀ c ∈ out, c ≠ 0 := by
  have hfrom : expandFrom false str.chars args = some out := hout
  exact expandFrom_nonzero str.nonzero hfrom

/-- The terminated buffer is printed up to its terminator. -/
theorem printStr_of_written {buf : Memory} {j : Nat} (h : Written buf j out)
    (hout : expansion str.chars args = some out) (hfits : out.length ≤ 4095) :
    printStr (buf.store j 0).byte = some out := by
  have hj : j = out.length := by
    have := h.index
    omega
  have hholds : (buf.store j 0).Holds 0 out :=
    (h.holds (by omega)).congr fun a ha =>
      Memory.store_byte_of_ne _ _ _ _ (by have := ha.2; omega)
  apply printStrFrom_eq hholds (expansion_nonzero hout)
  · rw [hj, Nat.zero_add, Memory.store_byte_self]
  · omega

end Output

section Console
variable {buf tempBuf : Nat → UInt8} {str : CString} {args : List PrintfArg} {out : List UInt8}
  {fuel : Nat} {r : PrintfState × List UInt8}

theorem exists_loop_of_consolePrintf (h : consolePrintf buf tempBuf str args fuel = some r) :
    ∃ s, printfLoop str str.chars.length fuel (printfStart buf tempBuf args) = some s ∧
      r.1.buf = s.buf.store s.j 0 ∧ r.1.tempBuf = s.tempBuf := by
  rw [consolePrintf, str.strLen_byte, Option.bind_some, Option.bind_eq_some_iff] at h
  obtain ⟨s, hloop, hprint⟩ := h
  obtain ⟨printed, -, rfl⟩ := Option.map_eq_some_iff.mp hprint
  exact ⟨s, hloop, rfl, rfl⟩

theorem length_lt_of_consolePrintf (h : consolePrintf buf tempBuf str args fuel = some r) :
    str.chars.length < 2 ^ 16 := by
  obtain ⟨s, hloop, -, -⟩ := exists_loop_of_consolePrintf h
  by_contra hlong
  have hstart : (printfStart buf tempBuf args).i < 2 ^ 16 := by
    show 0 < 2 ^ 16
    decide
  rw [printfLoop_of_long (by omega) hstart] at hloop
  cases hloop

/-- A longer expansion overruns the buffer, if only with its terminator. -/
theorem overrun_of_consolePrintf (hout : expansion str.chars args = some out)
    (h : consolePrintf buf tempBuf str args fuel = some r) (hlong : 4096 ≤ out.length) :
    4096 ∈ r.1.buf.writes := by
  obtain ⟨s, hloop, hbuf, -⟩ := exists_loop_of_consolePrintf h
  have hwritten := (printfLoop_spec (scanned_printfStart buf tempBuf hout)
    (length_lt_of_consolePrintf h) hloop).buf
  have hindex := hwritten.index
  rw [hbuf, Memory.store_writes, List.mem_cons]
  by_cases hend : out.length = 4096
  · exact Or.inl (by omega)
  · exact Or.inr (hwritten.overrun (by omega))

/-- A short expansion of a short format is printed, and stays in the buffers. -/
theorem consolePrintf_of_fits (hout : expansion str.chars args = some out)
    (hshort : str.chars.length < 2 ^ 16) (hfits : out.length ≤ 4095)
    (hfuel : str.chars.length < fuel) :
    ∃ s, consolePrintf buf tempBuf str args fuel = some (s, out) ∧
      (∀ a ∈ s.buf.writes, a < 4096) ∧ ∀ a ∈ s.tempBuf.writes, a < 64 := by
  have hstart := scanned_printfStart buf tempBuf hout
  have hi : (printfStart buf tempBuf args).i = 0 := rfl
  obtain ⟨s, hloop⟩ := printfLoop_terminates hstart hshort (by rw [hi, Nat.zero_add]; exact hfuel)
  obtain ⟨hwritten, htemp⟩ := printfLoop_spec hstart hshort hloop
  refine ⟨{ s with buf := s.buf.store s.j 0 }, ?_, ?_, htemp⟩
  · rw [consolePrintf, str.strLen_byte, Option.bind_some, hloop, Option.bind_some,
      printStr_of_written hwritten hout hfits, Option.map_some]
  · intro a ha
    have hindex := hwritten.index
    obtain heq | hold := List.mem_cons.mp ha
    · omega
    · exact hwritten.inside (by omega) a hold

/-- `Console__printf` ends within its buffers exactly when the format's length fits the counter and
the expansion leaves room for the terminator. -/
theorem printf_in_bounds_iff (buf tempBuf : Nat → UInt8)
    (hout : expansion str.chars args = some out) :
    (∃ fuel r, consolePrintf buf tempBuf str args fuel = some r ∧
        (∀ a ∈ r.1.buf.writes, a < 4096) ∧ ∀ a ∈ r.1.tempBuf.writes, a < 64) ↔
      str.chars.length < 65536 ∧ out.length ≤ 4095 := by
  constructor
  · intro h
    obtain ⟨fuel, r, hrun, hbuf, -⟩ := h
    refine ⟨length_lt_of_consolePrintf hrun, ?_⟩
    by_contra hlong
    exact absurd (hbuf 4096 (overrun_of_consolePrintf hout hrun (by omega))) (by decide)
  · intro h
    obtain ⟨s, hrun, hbounds⟩ := consolePrintf_of_fits hout h.1 h.2 (Nat.lt_succ_self _)
    exact ⟨_, _, hrun, hbounds⟩

/-- The format `%d!`. -/
def numberFormat : CString := ⟨[37, 100, 33], by simp, by simp⟩

theorem expansion_numberFormat : expansion numberFormat.chars [.num 42] = some [52, 50, 33] := by
  decide

theorem printf_in_bounds_iff_number :
    (∃ fuel r, consolePrintf (fun _ => 0xff) (fun _ => 0xff) numberFormat [.num 42] fuel = some r ∧
        (∀ a ∈ r.1.buf.writes, a < 4096) ∧ ∀ a ∈ r.1.tempBuf.writes, a < 64) ↔
      numberFormat.chars.length < 65536 ∧ [(52 : UInt8), 50, 33].length ≤ 4095 :=
  printf_in_bounds_iff (fun _ => 0xff) (fun _ => 0xff) expansion_numberFormat

theorem expansion_string (s : CString) : expansion [37, 115] [.str s] = some s.chars := by
  rw [expansion, if_pos (by decide), directive, if_pos (by decide), Option.bind_some, expansion,
    Option.map_some, List.append_nil]

/-- A string argument of 4096 characters leaves no room for the terminator. -/
theorem printf_out_of_bounds :
    expansion [37, 115] [.str (CString.repeated 4096 97 (by decide) (by decide))] =
        some (List.replicate 4096 97) ∧
      ¬∃ fuel r, consolePrintf (fun _ => 0) (fun _ => 0) ⟨[37, 115], by simp, by simp⟩
          [.str (CString.repeated 4096 97 (by decide) (by decide))] fuel = some r ∧
        (∀ a ∈ r.1.buf.writes, a < 4096) ∧ ∀ a ∈ r.1.tempBuf.writes, a < 64 := by
  refine ⟨expansion_string _, fun h => ?_⟩
  obtain ⟨fuel, r, hrun, hbuf, -⟩ := h
  have hlong : 4096 ≤ (CString.repeated 4096 97 (by decide) (by decide)).chars.length := by
    rw [CString.repeated, List.length_replicate]
  exact absurd (hbuf 4096 (overrun_of_consolePrintf (expansion_string _) hrun hlong)) (by decide)

/-- And it prints the expansion. -/
theorem printf_prints_expansion (buf tempBuf : Nat → UInt8)
    (hout : expansion str.chars args = some out) (hshort : str.chars.length < 65536)
    (hfits : out.length ≤ 4095) (hfuel : str.chars.length < fuel) :
    ∃ s, consolePrintf buf tempBuf str args fuel = some (s, out) := by
  obtain ⟨s, hrun, -⟩ := consolePrintf_of_fits hout hshort hfits hfuel
  exact ⟨s, hrun⟩

/-- The format `%s=%p%`, with the string `%d` and the number 255. -/
def stringFormat : CString := ⟨[37, 115, 61, 37, 112, 37], by simp, by simp⟩

def stringFormatArgs : List PrintfArg := [.str ⟨[37, 100], by simp, by simp⟩, .num 255]

theorem expansion_stringFormat :
    expansion stringFormat.chars stringFormatArgs = some [37, 100, 61, 102, 102] := by
  decide

/-- The argument is copied verbatim. -/
theorem printf_prints_expansion_verbatim :
    ∃ s, consolePrintf (fun _ => 0xff) (fun _ => 0xff) stringFormat stringFormatArgs 7 =
      some (s, [37, 100, 61, 102, 102]) :=
  printf_prints_expansion (fun _ => 0xff) (fun _ => 0xff) expansion_stringFormat (by decide)
    (by decide) (by decide)

end Console

end MyOSKernel
