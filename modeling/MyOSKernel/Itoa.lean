import MyOSKernel.Printf

/-! The numerals of `itoa` in the bases from 2 to 36, and `Console__print_int`, whose buffer of 32
bytes is meant for any of them. A numeral takes as many bytes as its base needs digits, so small
bases overrun the buffer. -/

namespace MyOSKernel

def IsDigit (c : UInt8) : Prop :=
  ('0'.toNat ≤ c.toNat ∧ c.toNat ≤ '9'.toNat) ∨ ('a'.toNat ≤ c.toNat ∧ c.toNat ≤ 'z'.toNat)

/-- The value of a digit, the letters from ten on. -/
def digitValue (c : UInt8) : Nat :=
  if c.toNat ≤ '9'.toNat then c.toNat - '0'.toNat else c.toNat - 'a'.toNat + 10

/-- The value of a string of digits, the first one the highest. -/
def stringValue (base : Nat) (l : List UInt8) : Nat :=
  l.foldl (fun value c => value * base + digitValue c) 0

/-- The string is the numeral of `num`: digits of the base, none of them a leading zero unless the
number is zero. -/
structure CanonicalNumeral (base num : Nat) (l : List UInt8) : Prop where
  nonempty : l ≠ []
  digit : ∀ c ∈ l, IsDigit c ∧ digitValue c < base
  leading : num ≠ 0 → l.head? ≠ some (UInt8.ofNat '0'.toNat)
  value : stringValue base l = num

section Digit
variable {base num d : Nat}

theorem isDigit_digitByte (hd : d < 36) : IsDigit (digitByte d) := by
  unfold IsDigit
  interval_cases d <;> decide

theorem digitValue_digitByte (hd : d < 36) : digitValue (digitByte d) = d := by
  interval_cases d <;> decide

/-- The lowest digit first, the value is that of the digits. -/
theorem stringValue_reverse {ds : List Nat} (hds : ∀ d ∈ ds, d < 36) :
    stringValue base (ds.map digitByte).reverse = Nat.ofDigits base ds := by
  rw [stringValue, List.foldl_reverse]
  induction ds with
  | nil => rfl
  | cons d ds ih =>
      have htail : ∀ d ∈ ds, d < 36 := fun d hd => hds d (List.mem_cons_of_mem _ hd)
      rw [List.map_cons, List.foldr_cons, ih htail, digitValue_digitByte (hds d List.mem_cons_self),
        Nat.ofDigits_cons, Nat.mul_comm]
      exact Nat.add_comm _ _

theorem digits_lt (hbase : 1 < base) (hbase' : base ≤ 36) : ∀ d ∈ Nat.digits base num, d < 36 :=
  fun _ hd => (Nat.digits_lt_base hbase hd).trans_le hbase'

theorem digitString_canonical (hbase : 1 < base) (hbase' : base ≤ 36) :
    CanonicalNumeral base num (digitString base num) := by
  have hlt : ∀ d ∈ Nat.digits base num, d < 36 := digits_lt hbase hbase'
  unfold digitString
  by_cases hzero : num = 0
  · rw [if_pos hzero]
    refine ⟨List.cons_ne_nil _ _, ?_, fun h => absurd hzero h, ?_⟩
    · intro c hc
      obtain rfl := List.mem_singleton.mp hc
      have hvalue : digitValue (UInt8.ofNat '0'.toNat) = 0 := rfl
      rw [hvalue]
      exact ⟨Or.inl (by decide), by omega⟩
    · rw [hzero]
      exact Nat.zero_mul base
  · rw [if_neg hzero]
    have hdigits : Nat.digits base num ≠ [] := Nat.digits_ne_nil_iff_ne_zero.mpr hzero
    refine ⟨by simpa [lowDigits] using hdigits, ?_, ?_, ?_⟩
    · intro c hc
      obtain ⟨d, hd, rfl⟩ := List.mem_map.mp (List.mem_reverse.mp hc)
      rw [digitValue_digitByte (hlt d hd)]
      exact ⟨isDigit_digitByte (hlt d hd), Nat.digits_lt_base hbase hd⟩
    · -- The first character is the highest digit.
      intro _ hlead
      have hlast := Nat.getLast_digit_ne_zero base hzero
      have hmem : (Nat.digits base num).getLast hdigits ∈ Nat.digits base num :=
        List.getLast_mem hdigits
      rw [lowDigits, List.head?_reverse, List.getLast?_map, List.getLast?_eq_getLast_of_ne_nil hdigits,
        Option.map_some] at hlead
      apply hlast
      rw [← digitValue_digitByte (hlt _ hmem), Option.some.inj hlead]
      rfl
    · rw [lowDigits, stringValue_reverse hlt, Nat.ofDigits_digits]

/-- How many digits a number needs. -/
theorem length_digitString_le_iff (hbase : 1 < base) {k : Nat} (hk : 0 < k) :
    (digitString base num).length ≤ k ↔ num < base ^ k := by
  unfold digitString
  by_cases hzero : num = 0
  · rw [if_pos hzero, List.length_singleton, hzero]
    exact iff_of_true hk (Nat.pow_pos (by omega))
  · rw [if_neg hzero, List.length_reverse, lowDigits, List.length_map]
    exact Nat.digits_length_le_iff hbase num

end Digit

/-- `itoa` leaves the canonical numeral, terminated, and writes nothing past it; the numeral tells
the number. -/
theorem itoa_canonical (m : Memory) {base num : Nat} (hbase : 2 ≤ base) (hbase' : base ≤ 36)
    (hnum : num < 2 ^ 64) :
    (∃ m' l, itoa m num base = some m' ∧ m'.Holds 0 l ∧ m'.byte l.length = 0 ∧
      CanonicalNumeral base num l ∧ ∀ b ∈ m'.writes, b < l.length + 1 ∨ b ∈ m.writes) ∧
    ∀ l num', CanonicalNumeral base num l → CanonicalNumeral base num' l → num = num' := by
  obtain ⟨m', hrun, hholds, hend, hwrites⟩ := itoa_digitString (m := m) hbase hnum
  refine ⟨⟨m', _, hrun, hholds, hend, digitString_canonical hbase hbase', ?_⟩, ?_⟩
  · intro b hb
    obtain hnew | hold := (hwrites b).mp hb
    · exact Or.inl (Nat.lt_succ_of_le hnew)
    · exact Or.inr hold
  · intro l num' h h'
    rw [← h.value, h'.value]

theorem itoa_canonical_max :
    (∃ m' l, itoa ⟨fun _ => 0xff, []⟩ (2 ^ 64 - 1) 36 = some m' ∧ m'.Holds 0 l ∧
      m'.byte l.length = 0 ∧ CanonicalNumeral 36 (2 ^ 64 - 1) l ∧
        ∀ b ∈ m'.writes, b < l.length + 1 ∨ b ∈ ([] : List Nat)) ∧
    ∀ l num', CanonicalNumeral 36 (2 ^ 64 - 1) l → CanonicalNumeral 36 num' l → 2 ^ 64 - 1 = num' :=
  itoa_canonical ⟨fun _ => 0xff, []⟩ (by decide) (by decide) (by decide)

/-! ### `Console__print_int` -/

/-- `Console__print_int` over what the stack held in `str`: the array `itoa` leaves, and the
characters printed. -/
def consolePrintInt (str : Nat → UInt8) (num base : Nat) : Option (Memory × List UInt8) :=
  (itoa ⟨str, []⟩ num base).bind fun str =>
    (printStr str.byte).map fun printed => (str, printed)

section PrintInt
variable {base num : Nat}

theorem consolePrintInt_eq (str : Nat → UInt8) (hbase : 1 < base) (hbase' : base ≤ 36)
    (hnum : num < 2 ^ 64) : ∃ m, consolePrintInt str num base = some (m, digitString base num) ∧
      ∀ b, b ∈ m.writes ↔ b ≤ (digitString base num).length := by
  obtain ⟨m, hrun, hholds, hend, hwrites⟩ := itoa_digitString (m := ⟨str, []⟩) hbase hnum
  have hlen : (digitString base num).length ≤ 64 := by
    rw [length_digitString_le_iff hbase (by decide)]
    exact hnum.trans_le (Nat.pow_le_pow_left hbase 64)
  have hnonzero : ∀ c ∈ digitString base num, c ≠ 0 := by
    intro c hc
    obtain ⟨hdigit, -⟩ := (digitString_canonical hbase hbase').digit c hc
    rintro rfl
    exact absurd hdigit (by unfold IsDigit; decide)
  have hprint : printStr m.byte = some (digitString base num) := by
    apply printStrFrom_eq hholds hnonzero
    · rw [Nat.zero_add, hend]
    · omega
  refine ⟨m, ?_, ?_⟩
  · rw [consolePrintInt, hrun, Option.bind_some, hprint, Option.map_some]
  · intro b
    rw [hwrites]
    simp

/-- The bytes written fit the 32 of `str` exactly when the number has at most 31 digits. -/
theorem printInt_in_bounds_iff (str : Nat → UInt8) (hbase : 2 ≤ base) (hbase' : base ≤ 36)
    (hnum : num < 2 ^ 64) :
    (∃ r, consolePrintInt str num base = some r ∧ ∀ a ∈ r.1.writes, a < 32) ↔ num < base ^ 31 := by
  obtain ⟨m, hrun, hwrites⟩ := consolePrintInt_eq str hbase hbase' hnum
  rw [← length_digitString_le_iff hbase (by decide), hrun]
  constructor
  · intro h
    obtain ⟨r, hr, hbounds⟩ := h
    cases hr
    have hend := hbounds _ ((hwrites _).mpr le_rfl)
    omega
  · intro hlen
    refine ⟨_, rfl, ?_⟩
    intro a ha
    have hle := (hwrites a).mp ha
    omega

theorem printInt_in_bounds_iff_decimal :
    (∃ r, consolePrintInt (fun _ => 0) (2 ^ 64 - 1) 10 = some r ∧ ∀ a ∈ r.1.writes, a < 32) ↔
      2 ^ 64 - 1 < 10 ^ 31 :=
  printInt_in_bounds_iff (fun _ => 0) (by decide) (by decide) (by decide)

/-- The binary numeral of `2 ^ 31` has 32 digits, and the terminator is written past the buffer. -/
theorem printInt_out_of_bounds :
    ¬∃ r, consolePrintInt (fun _ => 0) (2 ^ 31) 2 = some r ∧ ∀ a ∈ r.1.writes, a < 32 := by
  have hlen : ¬(digitString 2 (2 ^ 31)).length ≤ 31 := by
    rw [length_digitString_le_iff (by decide) (by decide)]
    decide
  intro h
  obtain ⟨r, hr, hbounds⟩ := h
  have hbase : 1 < 2 := by decide
  obtain ⟨m, hrun, hwrites⟩ := consolePrintInt_eq (fun _ => 0) hbase (by decide)
    (show 2 ^ 31 < 2 ^ 64 by decide)
  rw [hrun] at hr
  cases hr
  have hend := hbounds _ ((hwrites _).mpr le_rfl)
  omega

end PrintInt

end MyOSKernel
