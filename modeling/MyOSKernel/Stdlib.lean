import MyOSKernel.Bytes

/-! `memcpy` and `memset` of `libc/stdlib.c`. Filling is copying from an array that holds one value
throughout. -/

namespace MyOSKernel

/-- `memcpy` from another array; both pointers are advanced after each byte and wrap like any 64-bit
pointer. -/
def memcpy (m : Memory) (d : Nat) (src : Nat → UInt8) (s : Nat) : Nat → Memory
  | 0 => m
  | n + 1 => memcpy (m.store d (src s)) ((d + 1) % 2 ^ 64) src ((s + 1) % 2 ^ 64) n

/-- `memset`: the pointer is advanced after each store and wraps like any 64-bit pointer. -/
def memset (m : Memory) (ptr : Nat) (v : UInt8) : Nat → Memory
  | 0 => m
  | n + 1 => memset (m.store ptr v) ((ptr + 1) % 2 ^ 64) v n

section Memcpy
variable {m : Memory} {d s n b : Nat} {src : Nat → UInt8}

theorem memcpy_byte_of_notMem (hd : d + n ≤ 2 ^ 64) (hb : b ∉ Set.Ico d (d + n)) :
    (memcpy m d src s n).byte b = m.byte b := by
  induction n generalizing m d s with
  | zero => rfl
  | succ n ih =>
      have hne : b ≠ d := fun heq => hb (Set.mem_Ico.mpr ⟨by omega, by omega⟩)
      rw [memcpy]
      cases n with
      | zero => exact Memory.store_byte_of_ne _ _ _ _ hne
      | succ n =>
          rw [Nat.mod_eq_of_lt (by omega), ih (by omega), Memory.store_byte_of_ne _ _ _ _ hne]
          exact fun hc => hb (Set.Ico_subset_Ico (by omega) (by omega) hc)

theorem memcpy_byte_of_lt {k : Nat} (hd : d + n ≤ 2 ^ 64) (hs : s + n ≤ 2 ^ 64) (hk : k < n) :
    (memcpy m d src s n).byte (d + k) = src (s + k) := by
  induction n generalizing m d s k with
  | zero => exact absurd hk (Nat.not_lt_zero k)
  | succ n ih =>
      rw [memcpy]
      cases n with
      | zero =>
          obtain rfl : k = 0 := by omega
          exact Memory.store_byte_self _ _ _
      | succ n =>
          rw [Nat.mod_eq_of_lt (show d + 1 < 2 ^ 64 by omega),
            Nat.mod_eq_of_lt (show s + 1 < 2 ^ 64 by omega)]
          cases k with
          | zero =>
              simp only [Nat.add_zero]
              rw [memcpy_byte_of_notMem (by omega) (by simp), Memory.store_byte_self]
          | succ k =>
              rw [show d + (k + 1) = d + 1 + k by omega, show s + (k + 1) = s + 1 + k by omega]
              exact ih (by omega) (by omega) (by omega)

theorem memcpy_byte_cases (n b : Nat) :
    (∃ k, (memcpy m d src s n).byte b = src k) ∨ (memcpy m d src s n).byte b = m.byte b := by
  induction n generalizing m d s with
  | zero => exact Or.inr rfl
  | succ n ih =>
      have hrest : (∃ k, (memcpy m d src s (n + 1)).byte b = src k) ∨
          (memcpy m d src s (n + 1)).byte b = (m.store d (src s)).byte b := ih
      obtain h | h := hrest
      · exact Or.inl h
      · by_cases hb : b = d
        · rw [hb, Memory.store_byte_self] at h
          exact Or.inl ⟨s, hb ▸ h⟩
        · rw [Memory.store_byte_of_ne _ _ _ _ hb] at h
          exact Or.inr h

/-- The stores of `memcpy`, the latest first. -/
theorem memcpy_writes (hd : d < 2 ^ 64) : (memcpy m d src s n).writes =
    ((List.range n).map fun i => (d + i) % 2 ^ 64).reverse ++ m.writes := by
  induction n generalizing m d s with
  | zero => rfl
  | succ n ih =>
      have hshift : (fun i => ((d + 1) % 2 ^ 64 + i) % 2 ^ 64) =
          (fun i => (d + i) % 2 ^ 64) ∘ Nat.succ := by
        funext i
        simp only [Function.comp_apply]
        omega
      have hhead : (d + 0) % 2 ^ 64 = d := Nat.mod_eq_of_lt hd
      rw [memcpy, ih (Nat.mod_lt _ (by decide)), Memory.store_writes, hshift, List.range_succ_eq_map,
        List.map_cons, List.reverse_cons, List.map_map, hhead, List.append_assoc,
        List.singleton_append]

theorem mem_writes_memcpy (hd : d < 2 ^ 64) :
    b ∈ (memcpy m d src s n).writes ↔ (∃ i < n, b = (d + i) % 2 ^ 64) ∨ b ∈ m.writes := by
  rw [memcpy_writes hd]
  simp [eq_comm]

end Memcpy

/-! ### `memset` -/

section Memset
variable {m : Memory} {ptr n b : Nat} {v : UInt8}

theorem memset_eq_memcpy (s : Nat) : memset m ptr v n = memcpy m ptr (fun _ => v) s n := by
  induction n generalizing m ptr s with
  | zero => rfl
  | succ n ih => rw [memset, memcpy, ih]

theorem memset_byte_of_notMem (hptr : ptr + n ≤ 2 ^ 64) (hb : b ∉ Set.Ico ptr (ptr + n)) :
    (memset m ptr v n).byte b = m.byte b := by
  rw [memset_eq_memcpy 0]
  exact memcpy_byte_of_notMem hptr hb

theorem memset_byte_of_mem (hptr : ptr + n ≤ 2 ^ 64) (hb : b ∈ Set.Ico ptr (ptr + n)) :
    (memset m ptr v n).byte b = v := by
  obtain ⟨k, rfl⟩ := Nat.exists_eq_add_of_le hb.1
  have hk : k < n := by
    have := hb.2
    omega
  rw [memset_eq_memcpy 0]
  exact memcpy_byte_of_lt hptr (by omega) hk

theorem memset_byte_cases (n b : Nat) :
    (memset m ptr v n).byte b = v ∨ (memset m ptr v n).byte b = m.byte b := by
  rw [memset_eq_memcpy 0]
  have hcases : (∃ _ : Nat, (memcpy m ptr (fun _ => v) 0 n).byte b = v) ∨ _ :=
    memcpy_byte_cases n b
  obtain ⟨_, h⟩ | h := hcases
  · exact Or.inl h
  · exact Or.inr h

/-- The stores of `memset`, the latest first. -/
theorem memset_writes (hptr : ptr < 2 ^ 64) : (memset m ptr v n).writes =
    ((List.range n).map fun i => (ptr + i) % 2 ^ 64).reverse ++ m.writes := by
  rw [memset_eq_memcpy 0]
  exact memcpy_writes hptr

theorem mem_writes_memset (hptr : ptr < 2 ^ 64) :
    b ∈ (memset m ptr v n).writes ↔ (∃ i < n, b = (ptr + i) % 2 ^ 64) ∨ b ∈ m.writes := by
  rw [memset_eq_memcpy 0]
  exact mem_writes_memcpy hptr

end Memset

end MyOSKernel
