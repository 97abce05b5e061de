import MyOSKernel.StringCompare

/-! `strcmp` and `strncmp` of `libc/stdlib.c` with the positions they read. Both go through the
strings as long as these agree, and the byte of difference they return is zero exactly when nothing
they have looked at differs. The loops compare signed characters, which are equal when the bytes are. -/

namespace MyOSKernel

/-- The positions of the two strings read so far, the latest first. -/
structure StringReads where
  first : List Nat
  second : List Nat

def StringReads.readFirst (reads : StringReads) (i : Nat) : StringReads :=
  { reads with first := i :: reads.first }

def StringReads.readBoth (reads : StringReads) (i : Nat) : StringReads :=
  ⟨i :: reads.first, i :: reads.second⟩

/-- What a comparison returns and what it has read for it. -/
structure Comparison where
  result : UInt8
  reads : StringReads

/-- `*(const uint8_t *) str1 - *(const uint8_t *) str2`, of which eight bits are returned. -/
def asciiDifference (str1 str2 : Nat → UInt8) (i : Nat) (reads : StringReads) : Comparison :=
  ⟨str1 i - str2 i, reads.readBoth i⟩

/-- `while (*str1)`, which a difference breaks off. -/
def strcmpFrom (str1 str2 : Nat → UInt8) (i : Nat) (reads : StringReads) : Nat → Option Comparison
  | 0 => none
  | fuel + 1 =>
    if str1 i ≠ 0 then
      if str1 i ≠ str2 i then
        some (asciiDifference str1 str2 i ((reads.readFirst i).readBoth i))
      else strcmpFrom str1 str2 (i + 1) ((reads.readFirst i).readBoth i) fuel
    else some (asciiDifference str1 str2 i (reads.readFirst i))

/-- After `2 ^ 64` rounds every byte of memory has been read. -/
def strcmp (str1 str2 : Nat → UInt8) : Option Comparison := strcmpFrom str1 str2 0 ⟨[], []⟩ (2 ^ 64)

/-- `strncmp` with its reads: the second string is read only when the first has not ended. -/
def strncmpFrom (str1 str2 : Nat → UInt8) (i : Nat) (reads : StringReads) : Nat → Comparison
  | 0 => ⟨0, reads⟩
  | n + 1 =>
    if str1 i ≠ 0 then
      if str1 i = str2 i then strncmpFrom str1 str2 (i + 1) ((reads.readFirst i).readBoth i) n
      else asciiDifference str1 str2 i ((reads.readFirst i).readBoth i)
    else asciiDifference str1 str2 i (reads.readFirst i)

def strncmpTraced (str1 str2 : Nat → UInt8) (n : Nat) : Comparison :=
  strncmpFrom str1 str2 0 ⟨[], []⟩ n

/-- The bytes at a pointer are the string and its terminator. -/
def CString.At (s : CString) (str : Nat → UInt8) : Prop := ∀ k ≤ s.chars.length, str k = s.byte k

def StringReads.Within (P : Nat → Prop) (reads : StringReads) : Prop :=
  (∀ k ∈ reads.first, P k) ∧ ∀ k ∈ reads.second, P k

/-- Position `k` is past neither a terminator nor the first difference. -/
def NotPast (a b : CString) (k : Nat) : Prop :=
  k ≤ a.chars.length ∧ k ≤ b.chars.length ∧ ∀ j < k, a.byte j = b.byte j

/-- The comparisons of two strings tell whether they are equal, or equal in their first `n` bytes, from
what they have to read for that. -/
structure DecidesEquality (a b : CString) (str1 str2 : Nat → UInt8) : Prop where
  whole : ∃ c, strcmp str1 str2 = some c ∧ (c.result = 0 ↔ a = b) ∧ c.reads.Within (NotPast a b)
  first : ∀ n, strncmp str1 str2 n = 0 ↔
    (n ≤ a.chars.length ∧ n ≤ b.chars.length ∧ ∀ k < n, a.byte k = b.byte k) ∨
      (a = b ∧ a.chars.length < n)
  reads : ∀ n, (strncmpTraced str1 str2 n).result = strncmp str1 str2 n ∧
    (strncmpTraced str1 str2 n).reads.Within fun k => k < n ∧ NotPast a b k

section CStrings
variable {s a b : CString} {str : Nat → UInt8} {i : Nat}

theorem CString.at_byte (s : CString) : s.At s.byte := fun _ _ => rfl

theorem CString.At.ne_zero (h : s.At str) (hi : i < s.chars.length) : str i ≠ 0 := by
  rw [h i hi.le, s.byte_of_lt hi]
  exact s.nonzero _ (List.getElem_mem hi)

theorem CString.At.eq_zero (h : s.At str) : str s.chars.length = 0 :=
  (h _ le_rfl).trans s.byte_length

/-- Without a terminator before `i` the string has not ended there. -/
theorem CString.At.le_length (h : s.At str) (hpassed : ∀ k < i, str k ≠ 0) : i ≤ s.chars.length := by
  by_contra hlt
  exact hpassed _ (Nat.lt_of_not_le hlt) h.eq_zero

theorem CString.At.length_eq (h : s.At str) (hpassed : ∀ k < i, str k ≠ 0) (hend : str i = 0) :
    s.chars.length = i := by
  have hle : i ≤ s.chars.length := h.le_length hpassed
  by_contra hne
  exact h.ne_zero (by omega) hend

theorem CString.eq_of_bytes (hlength : a.chars.length = b.chars.length)
    (hbytes : ∀ k < a.chars.length, a.byte k = b.byte k) : a = b := by
  have hchars : a.chars = b.chars := by
    apply List.ext_getElem hlength
    intro k hk hk'
    rw [← a.byte_of_lt hk, ← b.byte_of_lt hk']
    exact hbytes k hk
  cases a
  cases b
  congr

end CStrings

/-- The strings agree before `i` and have not ended. -/
def AgreeBefore (str1 str2 : Nat → UInt8) (i : Nat) : Prop :=
  ∀ k < i, str1 k ≠ 0 ∧ str1 k = str2 k

/-- A comparison ends at the first difference or at the end of both strings. -/
structure EndsAt (str1 str2 : Nat → UInt8) (stop : Nat) : Prop where
  passed : AgreeBefore str1 str2 stop
  stopped : ¬(str1 stop ≠ 0 ∧ str1 stop = str2 stop)

section Compare
variable {a b : CString} {str1 str2 : Nat → UInt8} {i n bound fuel : Nat} {reads : StringReads}
  {P : Nat → Prop}

theorem AgreeBefore.zero : AgreeBefore str1 str2 0 := fun _ hk => absurd hk (Nat.not_lt_zero _)

theorem AgreeBefore.succ (h : AgreeBefore str1 str2 i) (hne : str1 i ≠ 0) (heq : str1 i = str2 i) :
    AgreeBefore str1 str2 (i + 1) :=
  Nat.forall_lt_succ_right.mpr ⟨h, hne, heq⟩

theorem AgreeBefore.notPast (h : AgreeBefore str1 str2 i) (ha : a.At str1) (hb : b.At str2) :
    NotPast a b i := by
  have hla : i ≤ a.chars.length := ha.le_length fun k hk => (h k hk).1
  have hlb : i ≤ b.chars.length := hb.le_length fun k hk => (h k hk).2 ▸ (h k hk).1
  refine ⟨hla, hlb, fun j hj => ?_⟩
  calc a.byte j = str1 j := (ha j (by omega)).symm
    _ = str2 j := (h j hj).2
    _ = b.byte j := hb j (by omega)

/-- Where a comparison ends the bytes are equal exactly when the strings are. -/
theorem EndsAt.eq_iff (h : EndsAt str1 str2 i) (ha : a.At str1) (hb : b.At str2) :
    str1 i = str2 i ↔ a = b := by
  obtain ⟨hla, -, hbytes⟩ := h.passed.notPast ha hb
  constructor
  · intro heq
    have hend : str1 i = 0 := by
      by_contra hne
      exact h.stopped ⟨hne, heq⟩
    have hlength : a.chars.length = i := ha.length_eq (fun k hk => (h.passed k hk).1) hend
    have hlength' : b.chars.length = i :=
      hb.length_eq (fun k hk => (h.passed k hk).2 ▸ (h.passed k hk).1) (heq ▸ hend)
    exact CString.eq_of_bytes (hlength.trans hlength'.symm) (hlength ▸ hbytes)
  · rintro rfl
    exact (ha i hla).trans (hb i hla).symm

theorem StringReads.Within.readFirst (h : reads.Within P) (hi : P i) : (reads.readFirst i).Within P :=
  ⟨List.forall_mem_cons.mpr ⟨hi, h.1⟩, h.2⟩

theorem StringReads.Within.readBoth (h : reads.Within P) (hi : P i) : (reads.readBoth i).Within P :=
  ⟨List.forall_mem_cons.mpr ⟨hi, h.1⟩, List.forall_mem_cons.mpr ⟨hi, h.2⟩⟩

theorem StringReads.Within.mono {Q : Nat → Prop} (h : reads.Within P) (himp : ∀ k, P k → Q k) :
    reads.Within Q :=
  ⟨fun k hk => himp k (h.1 k hk), fun k hk => himp k (h.2 k hk)⟩

theorem within_empty : StringReads.Within P ⟨[], []⟩ :=
  ⟨fun _ hk => absurd hk List.not_mem_nil, fun _ hk => absurd hk List.not_mem_nil⟩

/-- With the terminator of the first string ahead the loop ends, before or there. -/
theorem strcmpFrom_spec (ha : a.At str1) (hfuel : a.chars.length < i + fuel)
    (hagree : AgreeBefore str1 str2 i) (hreads : reads.Within (AgreeBefore str1 str2)) :
    ∃ c stop, strcmpFrom str1 str2 i reads fuel = some c ∧ EndsAt str1 str2 stop ∧
      c.result = str1 stop - str2 stop ∧ c.reads.Within (AgreeBefore str1 str2) := by
  induction fuel generalizing i reads with
  | zero =>
      have hle : i ≤ a.chars.length := ha.le_length fun k hk => (hagree k hk).1
      omega
  | succ fuel ih =>
      rw [strcmpFrom]
      by_cases hend : str1 i = 0
      · rw [if_neg (not_not.mpr hend)]
        exact ⟨_, i, rfl, ⟨hagree, fun h => h.1 hend⟩, rfl,
          (hreads.readFirst hagree).readBoth hagree⟩
      · rw [if_pos hend]
        by_cases heq : str1 i = str2 i
        · rw [if_neg (not_not.mpr heq)]
          exact ih (by omega) (hagree.succ hend heq) ((hreads.readFirst hagree).readBoth hagree)
        · rw [if_pos heq]
          exact ⟨_, i, rfl, ⟨hagree, fun h => heq h.2⟩, rfl,
            ((hreads.readFirst hagree).readBoth hagree).readBoth hagree⟩

/-- A difference of bytes that are not equal does not wrap to zero. -/
theorem strcmp_spec (ha : a.At str1) (hb : b.At str2) : ∃ c, strcmp str1 str2 = some c ∧
    (c.result = 0 ↔ a = b) ∧ c.reads.Within (NotPast a b) := by
  have hfuel : a.chars.length < 0 + 2 ^ 64 := by
    rw [Nat.zero_add]
    exact a.fits
  have hrun : ∃ c stop, strcmp str1 str2 = some c ∧ EndsAt str1 str2 stop ∧
      c.result = str1 stop - str2 stop ∧ c.reads.Within (AgreeBefore str1 str2) :=
    strcmpFrom_spec ha hfuel AgreeBefore.zero within_empty
  obtain ⟨c, stop, hc, hends, hresult, hreads⟩ := hrun
  refine ⟨c, hc, ?_, hreads.mono fun k hk => hk.notPast ha hb⟩
  rw [hresult, UInt8.sub_eq_iff_eq_add, UInt8.zero_add]
  exact hends.eq_iff ha hb

theorem strncmpFrom_result : (strncmpFrom str1 str2 i reads n).result =
    if (strncmpLoop str1 str2 i n).2 = 0 then 0
    else str1 (strncmpLoop str1 str2 i n).1 - str2 (strncmpLoop str1 str2 i n).1 := by
  induction n generalizing i reads with
  | zero => rfl
  | succ n ih =>
      rw [strncmpFrom, strncmpLoop]
      by_cases hend : str1 i = 0
      · have hstop : ¬(str1 i ≠ 0 ∧ str1 i = str2 i) := fun h => h.1 hend
        rw [if_neg (not_not.mpr hend), if_neg hstop]
        rfl
      · rw [if_pos hend]
        by_cases heq : str1 i = str2 i
        · have hpass : str1 i ≠ 0 ∧ str1 i = str2 i := ⟨hend, heq⟩
          rw [if_pos heq, if_pos hpass]
          exact ih
        · have hstop : ¬(str1 i ≠ 0 ∧ str1 i = str2 i) := fun h => heq h.2
          rw [if_neg heq, if_neg hstop]
          rfl

/-- Recording the reads leaves the result of `strncmp`. -/
theorem strncmpTraced_erase (str1 str2 : Nat → UInt8) (n : Nat) :
    (strncmpTraced str1 str2 n).result = strncmp str1 str2 n :=
  strncmpFrom_result

theorem strncmpFrom_reads (hbound : i + n ≤ bound) (hagree : AgreeBefore str1 str2 i)
    (hreads : reads.Within fun k => k < bound ∧ AgreeBefore str1 str2 k) :
    (strncmpFrom str1 str2 i reads n).reads.Within
      fun k => k < bound ∧ AgreeBefore str1 str2 k := by
  induction n generalizing i reads with
  | zero => exact hreads
  | succ n ih =>
      have hi : i < bound ∧ AgreeBefore str1 str2 i := ⟨by omega, hagree⟩
      have hround := (hreads.readFirst hi).readBoth hi
      rw [strncmpFrom]
      by_cases hend : str1 i = 0
      · rw [if_neg (not_not.mpr hend)]
        exact hround
      · rw [if_pos hend]
        by_cases heq : str1 i = str2 i
        · rw [if_pos heq]
          exact ih (by omega) (hagree.succ hend heq) hround
        · rw [if_neg heq]
          exact hround.readBoth hi

/-- Either the first `n` bytes agree, or the strings are compared to their end. -/
theorem strncmp_eq_zero_iff_first (ha : a.At str1) (hb : b.At str2) : strncmp str1 str2 n = 0 ↔
    (n ≤ a.chars.length ∧ n ≤ b.chars.length ∧ ∀ k < n, a.byte k = b.byte k) ∨
      (a = b ∧ a.chars.length < n) := by
  have hstop : StopsAt str1 str2 0 n (strncmpLoop str1 str2 0 n) := strncmpLoop_spec
  have hcount := hstop.count
  have hpassed : AgreeBefore str1 str2 (strncmpLoop str1 str2 0 n).1 :=
    fun k hk => hstop.passed k (Nat.zero_le k) hk
  rw [strncmp_eq_zero_iff]
  generalize strncmpLoop str1 str2 0 n = stop at *
  by_cases hleft : stop.2 = 0
  · have hn : stop.1 = n := by omega
    exact iff_of_true (Or.inl hleft) (Or.inl (hn ▸ hpassed.notPast ha hb))
  · have hends : EndsAt str1 str2 stop.1 := ⟨hpassed, hstop.stopped hleft⟩
    rw [or_iff_right hleft, hends.eq_iff ha hb]
    constructor
    · rintro rfl
      refine Or.inr ⟨rfl, ?_⟩
      have heq : str1 stop.1 = str2 stop.1 := (hends.eq_iff ha hb).mpr rfl
      have hend : str1 stop.1 = 0 := by
        by_contra hne
        exact hends.stopped ⟨hne, heq⟩
      have hlength : a.chars.length = stop.1 := ha.length_eq (fun k hk => (hpassed k hk).1) hend
      omega
    · intro h
      rcases h with ⟨hla, hlb, hbytes⟩ | ⟨heq, -⟩
      · have hlt : stop.1 < n := by omega
        refine absurd ⟨ha.ne_zero (by omega), ?_⟩ hends.stopped
        calc str1 stop.1 = a.byte stop.1 := ha _ (by omega)
          _ = b.byte stop.1 := hbytes _ hlt
          _ = str2 stop.1 := (hb _ (by omega)).symm
      · exact heq

/-- Both comparisons are exact on all pairs of strings. -/
theorem string_comparison_exact (ha : a.At str1) (hb : b.At str2) :
    DecidesEquality a b str1 str2 := by
  refine ⟨strcmp_spec ha hb, fun n => strncmp_eq_zero_iff_first ha hb, fun n => ?_⟩
  have hreads : (strncmpTraced str1 str2 n).reads.Within
      fun k => k < n ∧ AgreeBefore str1 str2 k :=
    strncmpFrom_reads (by omega) AgreeBefore.zero within_empty
  exact ⟨strncmpTraced_erase str1 str2 n, hreads.mono fun k hk => ⟨hk.1, hk.2.notPast ha hb⟩⟩

end Compare

/-- Three bytes above 0x7f, and a string that begins with them. -/
def threeHigh : CString := CString.repeated 3 0xff (by decide) (by decide)
def fourHigh : CString := CString.repeated 4 0xff (by decide) (by decide)

theorem string_comparison_high : DecidesEquality threeHigh fourHigh threeHigh.byte fourHigh.byte :=
  string_comparison_exact threeHigh.at_byte fourHigh.at_byte

end MyOSKernel
