import MyOSKernel.Strings

/-! `strncmp` of `libc/stdlib.c`. It stops at the first terminator or difference and returns the
difference of the bytes there, of which eight bits are left: enough to tell whether they are equal. -/

namespace MyOSKernel

/-- `while (n && *str1 && (*str1 == *str2))`: where the loop ends, and what is left of `n`. -/
def strncmpLoop (str1 str2 : Nat → UInt8) (i : Nat) : Nat → Nat × Nat
  | 0 => (i, 0)
  | n + 1 =>
    if str1 i ≠ 0 ∧ str1 i = str2 i then strncmpLoop str1 str2 (i + 1) n else (i, n + 1)

def strncmp (str1 str2 : Nat → UInt8) (n : Nat) : UInt8 :=
  let stop := strncmpLoop str1 str2 0 n
  if stop.2 = 0 then 0 else str1 stop.1 - str2 stop.1

/-- The loop from `i` on has passed equal characters, and stops after `n` or at the end or a
difference. -/
structure StopsAt (str1 str2 : Nat → UInt8) (i n : Nat) (stop : Nat × Nat) : Prop where
  le : i ≤ stop.1
  count : stop.1 + stop.2 = i + n
  passed : ∀ k, i ≤ k → k < stop.1 → str1 k ≠ 0 ∧ str1 k = str2 k
  stopped : stop.2 ≠ 0 → ¬(str1 stop.1 ≠ 0 ∧ str1 stop.1 = str2 stop.1)

section Compare
variable {str1 str2 : Nat → UInt8} {i n : Nat}

theorem strncmpLoop_spec : StopsAt str1 str2 i n (strncmpLoop str1 str2 i n) := by
  induction n generalizing i with
  | zero => exact ⟨le_rfl, rfl, fun k hle hlt => absurd hle (Nat.not_le.mpr hlt), fun h => absurd rfl h⟩
  | succ n ih =>
      rw [strncmpLoop]
      by_cases hpass : str1 i ≠ 0 ∧ str1 i = str2 i
      · rw [if_pos hpass]
        have hlater := ih (i := i + 1)
        refine ⟨by have := hlater.le; omega, by have := hlater.count; omega, ?_, hlater.stopped⟩
        intro k hle hlt
        by_cases hk : k = i
        · exact hk ▸ hpass
        · exact hlater.passed k (by omega) hlt
      · rw [if_neg hpass]
        exact ⟨le_rfl, rfl, fun k hle hlt => absurd hle (Nat.not_le.mpr hlt), fun _ => hpass⟩

/-- Nothing is left of the eight bits of a difference only when there is none. -/
theorem strncmp_eq_zero_iff : strncmp str1 str2 n = 0 ↔
    (strncmpLoop str1 str2 0 n).2 = 0 ∨
      str1 (strncmpLoop str1 str2 0 n).1 = str2 (strncmpLoop str1 str2 0 n).1 := by
  show (if (strncmpLoop str1 str2 0 n).2 = 0 then 0 else _) = 0 ↔ _
  by_cases hend : (strncmpLoop str1 str2 0 n).2 = 0
  · rw [if_pos hend]
    exact iff_of_true rfl (Or.inl hend)
  · rw [if_neg hend, or_iff_right hend, UInt8.sub_eq_iff_eq_add, UInt8.zero_add]

/-- Against a string without a terminator among its first `n` bytes, all of these are compared. -/
theorem strncmp_eq_zero_iff_of_nonzero (hnonzero : ∀ k < n, str2 k ≠ 0) :
    strncmp str1 str2 n = 0 ↔ ∀ k < n, str1 k = str2 k := by
  have hstop : StopsAt str1 str2 0 n (strncmpLoop str1 str2 0 n) := strncmpLoop_spec
  have hcount := hstop.count
  rw [strncmp_eq_zero_iff]
  constructor
  · intro h k hk
    have hend : (strncmpLoop str1 str2 0 n).2 = 0 := by
      by_contra hleft
      have heq := h.resolve_left hleft
      exact hstop.stopped hleft ⟨heq ▸ hnonzero _ (by omega), heq⟩
    exact (hstop.passed k (Nat.zero_le k) (by omega)).2
  · intro h
    by_cases hend : (strncmpLoop str1 str2 0 n).2 = 0
    · exact Or.inl hend
    · exact Or.inr (h _ (by omega))

end Compare

end MyOSKernel
