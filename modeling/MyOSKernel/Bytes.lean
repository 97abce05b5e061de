import Mathlib.Data.Set.Function
import Mathlib.Order.CompletePartialOrder
import Mathlib.Order.Interval.Set.Basic
import Mathlib.Tactic

/-! Byte-addressed memory with little-endian multi-byte accesses. A memory also records the
addresses it has been stored to, so that a statement about every byte a piece of code writes can be
read off the memory it leaves. Addresses are natural numbers; code that computes them reduces them
to its own pointer width. -/

namespace MyOSKernel

/-- The bytes of a memory and the addresses stored to so far, the latest first. -/
structure Memory where
  byte : Nat → UInt8
  writes : List Nat

namespace Memory

def store (m : Memory) (a : Nat) (v : UInt8) : Memory where
  byte := Function.update m.byte a v
  writes := a :: m.writes

/-- The little-endian number in the `n` bytes at `a`. -/
def loadLE (m : Memory) (a : Nat) : Nat → Nat
  | 0 => 0
  | n + 1 => (m.byte a).toNat + 256 * m.loadLE (a + 1) n

/-- Stores the low `n` bytes of `w` at `a`, lowest first. -/
def storeLE (m : Memory) (a w : Nat) : Nat → Memory
  | 0 => m
  | n + 1 => (m.store a (UInt8.ofNat w)).storeLE (a + 1) (w / 256) n

/-- Forgets the stores made so far. -/
def clearWrites (m : Memory) : Memory := { m with writes := [] }

variable (m m' : Memory) (a b w n : Nat) (v : UInt8)

@[simp] theorem store_byte_self : (m.store a v).byte a = v := by simp [store]

theorem store_byte_of_ne (h : b ≠ a) : (m.store a v).byte b = m.byte b := by simp [store, h]

@[simp] theorem store_writes : (m.store a v).writes = a :: m.writes := rfl

variable {m m' a b n}

theorem loadLE_congr (h : Set.EqOn m.byte m'.byte (Set.Ico a (a + n))) :
    m.loadLE a n = m'.loadLE a n := by
  induction n generalizing a with
  | zero => rfl
  | succ n ih =>
      have hhead : m.byte a = m'.byte a := h (Set.mem_Ico.mpr ⟨le_rfl, by omega⟩)
      have htail : Set.EqOn m.byte m'.byte (Set.Ico (a + 1) (a + 1 + n)) :=
        h.mono (Set.Ico_subset_Ico (by omega) (by omega))
      rw [loadLE, loadLE, hhead, ih htail]

theorem loadLE_lt : m.loadLE a n < 256 ^ n := by
  induction n generalizing a with
  | zero => simp [loadLE]
  | succ n ih =>
      have hbyte := (m.byte a).toNat_lt
      have htail : m.loadLE (a + 1) n < 256 ^ n := ih
      rw [loadLE, pow_succ]
      omega

/-- The number determines the bytes. -/
theorem byte_eq_of_loadLE_eq (h : m.loadLE a n = m'.loadLE a n) :
    Set.EqOn m.byte m'.byte (Set.Ico a (a + n)) := by
  induction n generalizing a with
  | zero => exact fun c hc => absurd hc (by simp)
  | succ n ih =>
      have hbyte := (m.byte a).toNat_lt
      have hbyte' := (m'.byte a).toNat_lt
      rw [loadLE, loadLE] at h
      have hhead : m.byte a = m'.byte a := UInt8.toNat_inj.mp (by omega)
      have htail : m.loadLE (a + 1) n = m'.loadLE (a + 1) n := by omega
      intro c hc
      by_cases hca : c = a
      · rw [hca, hhead]
      · exact ih htail ⟨by have := hc.1; omega, by have := hc.2; omega⟩

theorem loadLE_eq_zero (h : ∀ c ∈ Set.Ico a (a + n), m.byte c = 0) : m.loadLE a n = 0 := by
  induction n generalizing a with
  | zero => rfl
  | succ n ih =>
      rw [loadLE, h a ⟨le_rfl, by omega⟩,
        ih fun c hc => h c (Set.Ico_subset_Ico (by omega) (by omega) hc)]
      rfl

/-- The number whose digits the bytes are. -/
theorem loadLE_of_digits (h : ∀ k < n, m.byte (a + k) = UInt8.ofNat (w / 256 ^ k)) :
    m.loadLE a n = w % 256 ^ n := by
  induction n generalizing a w with
  | zero => simp [loadLE, Nat.mod_one]
  | succ n ih =>
      have hhead : m.byte a = UInt8.ofNat w := by simpa using h 0 (by omega)
      have htail := ih (a := a + 1) (w / 256) fun k hk => by
        rw [show a + 1 + k = a + (k + 1) by omega, h (k + 1) (by omega), Nat.div_div_eq_div_mul,
          Nat.pow_succ']
      have hlow : (UInt8.ofNat w).toNat = w % 256 := UInt8.toNat_ofNat'
      rw [loadLE, hhead, htail, hlow, Nat.pow_succ', Nat.mod_mul]

/-- The bytes of a number read are its digits. -/
theorem byte_toNat_eq_loadLE_div {k : Nat} (hk : k < n) :
    (m.byte (a + k)).toNat = m.loadLE a n / 256 ^ k % 256 := by
  induction n generalizing a k with
  | zero => exact absurd hk (Nat.not_lt_zero k)
  | succ n ih =>
      have hbyte := (m.byte a).toNat_lt
      rw [loadLE]
      cases k with
      | zero =>
          rw [Nat.add_zero, Nat.pow_zero, Nat.div_one]
          omega
      | succ k =>
          have hrest : ((m.byte a).toNat + 256 * m.loadLE (a + 1) n) / 256 = m.loadLE (a + 1) n := by
            omega
          rw [show a + (k + 1) = a + 1 + k by omega, ih (Nat.lt_of_succ_lt_succ hk), Nat.pow_succ',
            ← Nat.div_div_eq_div_mul, hrest]

theorem storeLE_byte_of_notMem (h : b ∉ Set.Ico a (a + n)) :
    (m.storeLE a w n).byte b = m.byte b := by
  induction n generalizing m a w with
  | zero => rfl
  | succ n ih =>
      have hne : b ≠ a := fun heq => h ⟨by omega, by omega⟩
      rw [storeLE, ih, store_byte_of_ne _ _ _ _ hne]
      exact fun hc => h ⟨by have := hc.1; omega, by have := hc.2; omega⟩

@[simp] theorem loadLE_storeLE : (m.storeLE a w n).loadLE a n = w % 256 ^ n := by
  induction n generalizing m a w with
  | zero => simp [loadLE, Nat.mod_one]
  | succ n ih =>
      have hhead : ((m.store a (UInt8.ofNat w)).storeLE (a + 1) (w / 256) n).byte a =
          UInt8.ofNat w := by
        rw [storeLE_byte_of_notMem _ (fun hc => by have := hc.1; omega), store_byte_self]
      have hlow : (UInt8.ofNat w).toNat = w % 256 := UInt8.toNat_ofNat'
      rw [storeLE, loadLE, hhead, ih, hlow, Nat.pow_succ', Nat.mod_mul]

theorem storeLE_add (k n : Nat) :
    m.storeLE a w (k + n) = (m.storeLE a w k).storeLE (a + k) (w / 256 ^ k) n := by
  induction k generalizing m a w with
  | zero => rw [Nat.zero_add, storeLE, Nat.add_zero, Nat.pow_zero, Nat.div_one]
  | succ k ih =>
      rw [show k + 1 + n = k + n + 1 by omega, storeLE, storeLE, ih, Nat.div_div_eq_div_mul,
        ← Nat.pow_succ', show a + 1 + k = a + (k + 1) by omega]

/-- A read is unaffected by a store to other bytes. -/
theorem loadLE_storeLE_of_disjoint {k : Nat} (h : b + k ≤ a ∨ a + n ≤ b) :
    (m.storeLE a w n).loadLE b k = m.loadLE b k :=
  loadLE_congr fun c hc => storeLE_byte_of_notMem _ fun hc' => by
    have := hc.1; have := hc.2; have := hc'.1; have := hc'.2
    omega

theorem suffix_writes_storeLE : m.writes <:+ (m.storeLE a w n).writes := by
  induction n generalizing m a w with
  | zero => exact List.suffix_refl _
  | succ n ih =>
      have htail := ih (m := m.store a (UInt8.ofNat w)) (a := a + 1) (w / 256)
      rw [store_writes] at htail
      exact (List.suffix_cons a m.writes).trans htail

theorem mem_writes_storeLE :
    b ∈ (m.storeLE a w n).writes ↔ b ∈ Set.Ico a (a + n) ∨ b ∈ m.writes := by
  induction n generalizing m a w with
  | zero => simp [storeLE]
  | succ n ih =>
      rw [storeLE, ih, store_writes, List.mem_cons]
      simp only [Set.mem_Ico]
      constructor
      · intro hc
        obtain h | h | h := hc
        · exact Or.inl ⟨by omega, by omega⟩
        · exact Or.inl ⟨by omega, by omega⟩
        · exact Or.inr h
      · intro hc
        obtain h | h := hc
        · by_cases hb : b = a
          · exact Or.inr (Or.inl hb)
          · exact Or.inl ⟨by omega, by omega⟩
        · exact Or.inr (Or.inr h)

end Memory

/-! ### Memory with a trace of the reads -/

/-- A memory and the addresses read from it so far. -/
structure TracedMemory where
  mem : Memory
  reads : List Nat

namespace TracedMemory

def load (s : TracedMemory) (a : Nat) : UInt8 × TracedMemory :=
  (s.mem.byte a, { s with reads := a :: s.reads })

def loadLE (s : TracedMemory) (a n : Nat) : Nat × TracedMemory :=
  (s.mem.loadLE a n, { s with reads := (List.range n).map (a + ·) ++ s.reads })

def store (s : TracedMemory) (a : Nat) (v : UInt8) : TracedMemory :=
  { s with mem := s.mem.store a v }

/-- The addresses read and written so far. -/
def accesses (s : TracedMemory) : List Nat := s.reads ++ s.mem.writes

end TracedMemory

end MyOSKernel
