import MyOSKernel.Loops
import MyOSKernel.Stdlib
import Mathlib.Data.List.GetD
import Mathlib.Data.Nat.Digits.Defs

/-! The strings and numbers of `libc/stdlib.c`: `str_len`, `str_reverse` and `itoa`. An array of the
C code is a memory of its own, addressed from its start, so that a store past its end shows in its
writes. `itoa` writes the canonical numeral and a terminator. -/

namespace MyOSKernel

/-- A string, without its terminator. -/
structure CString where
  chars : List UInt8
  nonzero : ∀ c ∈ chars, c ≠ 0
  fits : chars.length < 2 ^ 64

/-- The bytes of the string, the terminator included. -/
def CString.byte (s : CString) (k : Nat) : UInt8 := s.chars.getD k 0

def CString.repeated (n : Nat) (c : UInt8) (hc : c ≠ 0) (hn : n < 2 ^ 64) : CString where
  chars := List.replicate n c
  nonzero := fun _ h => List.eq_of_mem_replicate h ▸ hc
  fits := by rwa [List.length_replicate]

/-- The bytes from `a` on are those of the list. -/
def Memory.Holds (m : Memory) (a : Nat) (l : List UInt8) : Prop :=
  ∀ k (hk : k < l.length), m.byte (a + k) = l[k]

/-- `while (str[count] != '\0') count++`. The counter wraps after `2 ^ 64` rounds, which have read
every byte. -/
def strLenFrom (str : Nat → UInt8) (count : Nat) : Nat → Option Nat
  | 0 => none
  | fuel + 1 => if str count ≠ 0 then strLenFrom str (count + 1) fuel else some count

def strLen (str : Nat → UInt8) : Option Nat := strLenFrom str 0 (2 ^ 64)

def strReverse (m : Memory) (len : Nat) : Memory :=
  Nat.fold (len / 2) (fun i _ m =>
    let temp := m.byte i
    (m.store i (m.byte (len - i - 1))).store (len - i - 1) temp) m

/-- `(rem > 9) ? (rem - 10) + 'a' : rem + '0'`. -/
def digitByte (rem : Nat) : UInt8 :=
  if rem > 9 then UInt8.ofNat (rem - 10 + 'a'.toNat) else UInt8.ofNat (rem + '0'.toNat)

/-- `while (num != 0)`: the digits, the lowest first. -/
def itoaDigits (m : Memory) (base num i : Nat) : Nat → Option (Memory × Nat)
  | 0 => none
  | fuel + 1 =>
    if num ≠ 0 then
      itoaDigits (m.store i (digitByte (num % base))) base (num / base) (i + 1) fuel
    else some (m, i)

/-- `itoa` of a 64-bit number, which has no more than 64 digits in any base from two on. -/
def itoa (m : Memory) (num base : Nat) : Option Memory :=
  if num = 0 then some ((m.store 0 (UInt8.ofNat '0'.toNat)).store 1 0)
  else (itoaDigits m base num 0 65).map fun r => strReverse (r.1.store r.2 0) r.2

section Strings
variable {m : Memory} {a n : Nat} {l : List UInt8} {str : Nat → UInt8}

theorem CString.byte_of_lt (s : CString) {k : Nat} (hk : k < s.chars.length) :
    s.byte k = s.chars[k] := by
  rw [CString.byte, List.getD_eq_getElem _ _ hk]

theorem CString.byte_length (s : CString) : s.byte s.chars.length = 0 := by
  rw [CString.byte, List.getD_eq_default _ _ le_rfl]

/-- `str_len` stops at the terminator. -/
theorem strLenFrom_eq {count fuel : Nat} (hle : count ≤ n) (hfuel : n < count + fuel)
    (hchars : ∀ k < n, str k ≠ 0) (hend : str n = 0) : strLenFrom str count fuel = some n := by
  induction fuel generalizing count with
  | zero => omega
  | succ fuel ih =>
      rw [strLenFrom]
      by_cases hstop : count = n
      · rw [if_neg (not_not.mpr (hstop ▸ hend)), hstop]
      · rw [if_pos (hchars count (by omega)), ih (by omega) (by omega)]

theorem strLen_eq (hn : n < 2 ^ 64) (hchars : ∀ k < n, str k ≠ 0) (hend : str n = 0) :
    strLen str = some n :=
  strLenFrom_eq (Nat.zero_le n) (by omega) hchars hend

theorem CString.strLen_byte (s : CString) : strLen s.byte = some s.chars.length := by
  apply strLen_eq s.fits
  · intro k hk
    rw [s.byte_of_lt hk]
    exact s.nonzero _ (List.getElem_mem hk)
  · exact s.byte_length

theorem Memory.Holds.congr {m' : Memory} (h : m.Holds a l)
    (hbytes : Set.EqOn m'.byte m.byte (Set.Ico a (a + l.length))) : m'.Holds a l := by
  intro k hk
  rw [hbytes ⟨by omega, by omega⟩]
  exact h k hk

theorem Memory.Holds.append {l' : List UInt8} (h : m.Holds a l)
    (h' : m.Holds (a + l.length) l') : m.Holds a (l ++ l') := by
  intro k hk
  by_cases hlt : k < l.length
  · rw [List.getElem_append_left hlt]
    exact h k hlt
  · rw [List.getElem_append_right (by omega), ← h' (k - l.length) (by simp at hk; omega)]
    congr 1
    omega

end Strings

section Reverse
variable {m : Memory} {l : List UInt8} {len : Nat}

/-- After `i` rounds the first and the last `i` bytes have changed places. -/
theorem strReverse_byte (k : Nat) :
    (strReverse m len).byte k = if k < len then m.byte (len - 1 - k) else m.byte k := by
  have hrounds := fold_invariant
    (fun i (r : Memory) => ∀ k, r.byte k =
      if k < i ∨ (len - i ≤ k ∧ k < len) then m.byte (len - 1 - k) else m.byte k)
    (n := len / 2) (s := m) (f := fun i _ r =>
      (r.store i (r.byte (len - i - 1))).store (len - i - 1) (r.byte i))
    (fun k => by rw [if_neg (by omega)])
    (fun i hi r hr k => by
      by_cases hlast : k = len - i - 1
      · rw [hlast, Memory.store_byte_self, hr, if_neg (by omega), if_pos (by omega)]
        congr 1
        omega
      · rw [Memory.store_byte_of_ne _ _ _ _ hlast]
        by_cases hfirst : k = i
        · rw [hfirst, Memory.store_byte_self, hr, if_neg (by omega), if_pos (by omega)]
          congr 1
          omega
        · rw [Memory.store_byte_of_ne _ _ _ _ hfirst, hr]
          congr 1
          rw [eq_iff_iff]
          omega)
  rw [strReverse, hrounds k]
  by_cases hk : k < len
  · rw [if_pos hk]
    by_cases hmiddle : k < len / 2 ∨ (len - len / 2 ≤ k ∧ k < len)
    · rw [if_pos hmiddle]
    · -- The middle byte of an odd number stays in its place.
      rw [if_neg hmiddle]
      congr 1
      omega
  · rw [if_neg hk, if_neg (by omega)]

theorem mem_writes_strReverse {b : Nat} (hb : b ∈ (strReverse m len).writes) :
    b < len ∨ b ∈ m.writes := by
  have hrounds := fold_invariant
    (fun _ (r : Memory) => ∀ b ∈ r.writes, b < len ∨ b ∈ m.writes)
    (n := len / 2) (s := m) (f := fun i _ r =>
      (r.store i (r.byte (len - i - 1))).store (len - i - 1) (r.byte i))
    (fun b hb => Or.inr hb)
    (fun i hi r hr b hb => by
      obtain heq | heq | hold : b = len - i - 1 ∨ b = i ∨ b ∈ r.writes := by simpa using hb
      · exact Or.inl (by omega)
      · exact Or.inl (by omega)
      · exact hr b hold)
  exact hrounds b hb

theorem writes_subset_strReverse : m.writes ⊆ (strReverse m len).writes := by
  have hrounds := fold_invariant
    (fun _ (r : Memory) => m.writes ⊆ r.writes)
    (n := len / 2) (s := m) (f := fun i _ r =>
      (r.store i (r.byte (len - i - 1))).store (len - i - 1) (r.byte i))
    (List.Subset.refl _)
    (fun i hi r hr b hb => List.mem_cons_of_mem _ (List.mem_cons_of_mem _ (hr hb)))
  exact hrounds

theorem Memory.Holds.strReverse (h : m.Holds 0 l) (hlen : l.length = len) :
    (strReverse m len).Holds 0 l.reverse := by
  intro k hk
  rw [List.length_reverse, hlen] at hk
  rw [strReverse_byte, if_pos (by omega), List.getElem_reverse, ← h]
  congr 1
  omega

end Reverse

/-- The canonical numeral of `n`. -/
def numeral (base n : Nat) : List UInt8 := (Nat.toDigits base n).map fun c => UInt8.ofNat c.toNat

/-- The digits from the lowest on, none for zero. -/
def lowDigits (base n : Nat) : List UInt8 := (Nat.digits base n).map digitByte

section Numeral
variable {base n : Nat}

theorem digitByte_eq_digitChar {d : Nat} (hd : d < 16) :
    UInt8.ofNat (Nat.digitChar d).toNat = digitByte d := by
  interval_cases d <;> decide

theorem digitByte_ne_zero {d : Nat} (hd : d < 16) : digitByte d ≠ 0 := by
  interval_cases d <;> decide

/-- The last digit comes off the end. -/
theorem numeral_eq (hbase : 1 < base) (hbase' : base ≤ 16) : numeral base n =
    (if n < base then [] else numeral base (n / base)) ++ [digitByte (n % base)] := by
  have hdigit := digitByte_eq_digitChar ((Nat.mod_lt n (by omega)).trans_le hbase')
  unfold numeral
  rw [Nat.toDigits_eq_if hbase]
  by_cases hn : n < base
  · rw [Nat.mod_eq_of_lt hn] at hdigit ⊢
    rw [if_pos hn, if_pos hn, List.map_singleton, hdigit, List.nil_append]
  · rw [if_neg hn, if_neg hn, List.map_append, List.map_singleton, hdigit]

theorem lowDigits_eq (hbase : 1 < base) (hn : n ≠ 0) :
    lowDigits base n = digitByte (n % base) :: lowDigits base (n / base) := by
  rw [lowDigits, Nat.digits_def' hbase (Nat.pos_of_ne_zero hn), List.map_cons]
  rfl

theorem reverse_lowDigits (hbase : 1 < base) (hbase' : base ≤ 16) (hn : n ≠ 0) :
    (lowDigits base n).reverse = numeral base n := by
  induction n using Nat.strong_induction_on with
  | _ n ih =>
      rw [lowDigits_eq hbase hn, List.reverse_cons, numeral_eq hbase hbase']
      by_cases hlt : n < base
      · rw [if_pos hlt, Nat.div_eq_of_lt hlt, lowDigits, Nat.digits_zero]
        rfl
      · have hdiv : n / base ≠ 0 := by
          have := Nat.div_pos (Nat.le_of_not_lt hlt) (by omega)
          omega
        rw [if_neg hlt, ih _ (Nat.div_lt_self (Nat.pos_of_ne_zero hn) hbase) hdiv]

theorem numeral_zero : numeral base 0 = [UInt8.ofNat '0'.toNat] := by
  rw [numeral, Nat.toDigits_zero]
  rfl

theorem numeral_nonzero (hbase : 1 < base) (hbase' : base ≤ 16) : ∀ c ∈ numeral base n, c ≠ 0 := by
  induction n using Nat.strong_induction_on with
  | _ n ih =>
      intro c hc
      rw [numeral_eq hbase hbase', List.mem_append, List.mem_singleton] at hc
      obtain hc | hc := hc
      · by_cases hlt : n < base
        · rw [if_pos hlt] at hc
          exact absurd hc List.not_mem_nil
        · rw [if_neg hlt] at hc
          exact ih _ (Nat.div_lt_self (by omega) hbase) c hc
      · rw [hc]
        exact digitByte_ne_zero ((Nat.mod_lt n (by omega)).trans_le hbase')

/-- A 64-bit number has at most twenty digits in base ten or more. -/
theorem length_numeral_le (hbase : 10 ≤ base) (hn : n < 2 ^ 64) :
    (numeral base n).length ≤ 20 := by
  have hpow : 10 ^ 20 ≤ base ^ 20 := Nat.pow_le_pow_left hbase 20
  rw [numeral, List.length_map, Nat.length_toDigits_le_iff (by omega) (by decide)]
  omega

end Numeral

section Itoa
variable {m : Memory} {base num : Nat}

/-- Without digits left the loop ends. -/
theorem itoaDigits_zero {i : Nat} (fuel : Nat) :
    ∃ m', itoaDigits m base 0 i (fuel + 1) = some (m', i + (lowDigits base 0).length) ∧
      m'.Holds i (lowDigits base 0) ∧
      (∀ b < i, m'.byte b = m.byte b) ∧
      ∀ b, b ∈ m'.writes ↔ b ∈ Set.Ico i (i + (lowDigits base 0).length) ∨ b ∈ m.writes := by
  have hnone : lowDigits base 0 = [] := by
    rw [lowDigits, Nat.digits_zero]
    rfl
  rw [hnone]
  refine ⟨m, ?_, ?_, fun b _ => rfl, ?_⟩
  · rw [itoaDigits, if_neg (by simp)]
    rfl
  · intro k hk
    exact absurd hk (Nat.not_lt_zero k)
  · intro b
    simp

/-- The loop writes the digits from the lowest on. -/
theorem itoaDigits_spec (hbase : 1 < base) {i fuel : Nat} (hfuel : num < 2 ^ fuel) :
    ∃ m', itoaDigits m base num i (fuel + 1) = some (m', i + (lowDigits base num).length) ∧
      m'.Holds i (lowDigits base num) ∧
      (∀ b < i, m'.byte b = m.byte b) ∧
      ∀ b, b ∈ m'.writes ↔ b ∈ Set.Ico i (i + (lowDigits base num).length) ∨ b ∈ m.writes := by
  induction fuel generalizing m num i with
  | zero =>
      obtain rfl : num = 0 := by omega
      exact itoaDigits_zero 0
  | succ fuel ih =>
      by_cases hnum : num = 0
      · subst hnum
        exact itoaDigits_zero (fuel + 1)
      · have hdiv : num / base < 2 ^ fuel := by
          have hhalf : num / base ≤ num / 2 := Nat.div_le_div_left hbase (by decide)
          rw [Nat.pow_succ] at hfuel
          omega
        obtain ⟨m', hrun, hholds, hbelow, hwrites⟩ :=
          ih (m := m.store i (digitByte (num % base))) (i := i + 1) hdiv
        rw [lowDigits_eq hbase hnum, List.length_cons]
        refine ⟨m', ?_, ?_, ?_, ?_⟩
        · rw [itoaDigits, if_pos hnum, hrun]
          congr 2
          omega
        · intro k hk
          cases k with
          | zero =>
              rw [List.getElem_cons_zero, Nat.add_zero, hbelow i (by omega),
                Memory.store_byte_self]
          | succ k =>
              rw [List.getElem_cons_succ, show i + (k + 1) = i + 1 + k by omega]
              exact hholds k (by simpa using hk)
        · intro b hb
          rw [hbelow b (by omega), Memory.store_byte_of_ne _ _ _ _ (by omega)]
        · intro b
          rw [hwrites, Memory.store_writes, List.mem_cons, Set.mem_Ico, Set.mem_Ico, ← or_assoc]
          apply or_congr_left
          omega

/-- The string `itoa` leaves. -/
def digitString (base n : Nat) : List UInt8 :=
  if n = 0 then [UInt8.ofNat '0'.toNat] else (lowDigits base n).reverse

theorem digitString_eq_numeral (hbase : 1 < base) (hbase' : base ≤ 16) :
    digitString base num = numeral base num := by
  unfold digitString
  by_cases hzero : num = 0
  · rw [if_pos hzero, hzero, numeral_zero]
  · rw [if_neg hzero, reverse_lowDigits hbase hbase' hzero]

/-- `itoa` writes the digits and a terminator. -/
theorem itoa_digitString (hbase : 1 < base) (hnum : num < 2 ^ 64) :
    ∃ m', itoa m num base = some m' ∧ m'.Holds 0 (digitString base num) ∧
      m'.byte (digitString base num).length = 0 ∧
      ∀ b, b ∈ m'.writes ↔ b ≤ (digitString base num).length ∨ b ∈ m.writes := by
  unfold itoa digitString
  by_cases hzero : num = 0
  · rw [if_pos hzero, if_pos hzero]
    refine ⟨_, rfl, ?_, rfl, ?_⟩
    · intro k hk
      obtain rfl : k = 0 := by simpa using hk
      rfl
    · intro b
      rw [Memory.store_writes, Memory.store_writes, List.mem_cons, List.mem_cons, ← or_assoc,
        List.length_singleton]
      apply or_congr_left
      omega
  · obtain ⟨r, hrun, hholds, -, hwrites⟩ := itoaDigits_spec (m := m) hbase (i := 0) hnum
    rw [Nat.zero_add] at hrun
    rw [if_neg hzero, if_neg hzero, hrun, Option.map_some, List.length_reverse]
    have hstored : (r.store (lowDigits base num).length 0).Holds 0 (lowDigits base num) :=
      hholds.congr fun b hb => Memory.store_byte_of_ne _ _ _ _ (by have := hb.2; omega)
    refine ⟨_, rfl, hstored.strReverse rfl, ?_, ?_⟩
    · rw [strReverse_byte, if_neg (by omega), Memory.store_byte_self]
    · intro b
      have hloop : b ∈ (r.store (lowDigits base num).length 0).writes ↔
          b ≤ (lowDigits base num).length ∨ b ∈ m.writes := by
        rw [Memory.store_writes, List.mem_cons, hwrites, Set.mem_Ico, ← or_assoc]
        apply or_congr_left
        omega
      rw [← hloop]
      constructor
      · intro hb
        obtain h | h := mem_writes_strReverse hb
        · exact hloop.mpr (Or.inl h.le)
        · exact h
      · intro hb
        exact writes_subset_strReverse hb

/-- In a base up to sixteen the string is the canonical numeral. -/
theorem itoa_spec (hbase : 1 < base) (hbase' : base ≤ 16) (hnum : num < 2 ^ 64) :
    ∃ m', itoa m num base = some m' ∧ m'.Holds 0 (numeral base num) ∧
      m'.byte (numeral base num).length = 0 ∧
      ∀ b, b ∈ m'.writes ↔ b ≤ (numeral base num).length ∨ b ∈ m.writes := by
  rw [← digitString_eq_numeral hbase hbase']
  exact itoa_digitString hbase hnum

end Itoa

end MyOSKernel
