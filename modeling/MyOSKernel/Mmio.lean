import MyOSKernel.Bytes

/-! Registers of 64 bits mapped into memory, on a bus shared with hardware. Between two accesses the
hardware may change the memory; registers that it leaves alone behave as variables, one for each, under
any sequence of reads and writes. -/

namespace MyOSKernel

/-- The memory behind the bus, and the number of accesses made so far. -/
structure Bus where
  mem : Memory
  accesses : Nat

/-- What the hardware does to the memory before an access. -/
abbrev Hardware := Nat → Memory → Memory

namespace Bus

/-- `mmio_read64`. -/
def read64 (hw : Hardware) (bus : Bus) (p : Nat) : UInt64 × Bus :=
  (UInt64.ofNat ((hw bus.accesses bus.mem).loadLE p 8), ⟨hw bus.accesses bus.mem, bus.accesses + 1⟩)

/-- `mmio_write64`. -/
def write64 (hw : Hardware) (bus : Bus) (p : Nat) (data : UInt64) : Bus :=
  ⟨(hw bus.accesses bus.mem).storeLE p data.toNat 8, bus.accesses + 1⟩

end Bus

/-- The addresses of registers that do not overlap. -/
structure RegisterMap (ρ : Type) where
  addr : ρ → Nat
  apart : ∀ r r', r ≠ r' → addr r + 8 ≤ addr r' ∨ addr r' + 8 ≤ addr r

namespace RegisterMap
variable {ρ : Type} (regs : RegisterMap ρ) {hw : Hardware} {mem mem' : Memory} {bus : Bus}

/-- What the registers hold. -/
def value (mem : Memory) (r : ρ) : UInt64 := UInt64.ofNat (mem.loadLE (regs.addr r) 8)

/-- The hardware leaves the register alone. -/
def LeftAlone (hw : Hardware) (r : ρ) : Prop :=
  ∀ n mem, regs.value (hw n mem) r = regs.value mem r

variable {regs}

theorem value_storeLE [DecidableEq ρ] (r : ρ) (data : UInt64) :
    regs.value (mem.storeLE (regs.addr r) data.toNat 8) =
      Function.update (regs.value mem) r data := by
  funext r'
  by_cases hr : r' = r
  · rw [hr, Function.update_self, value, Memory.loadLE_storeLE,
      Nat.mod_eq_of_lt (data.toNat_lt.trans_le (by decide)), UInt64.ofNat_toNat]
  · rw [Function.update_of_ne hr, value, Memory.loadLE_storeLE_of_disjoint _ (regs.apart r' r hr)]
    rfl

namespace LeftAlone
variable {r : ρ} (halone : regs.LeftAlone hw r)
include halone

/-- A read returns what the register holds. -/
theorem read64 : (bus.read64 hw (regs.addr r)).1 = regs.value bus.mem r :=
  halone bus.accesses bus.mem

/-- No read changes it. -/
theorem value_read64 (p : Nat) : regs.value (bus.read64 hw p).2.mem r = regs.value bus.mem r :=
  halone bus.accesses bus.mem

variable [DecidableEq ρ] (r' : ρ)

/-- It changes when it is the register written. -/
theorem value_write64 (data : UInt64) :
    regs.value (bus.write64 hw (regs.addr r') data).mem r =
      Function.update (regs.value bus.mem) r' data r := by
  rw [Bus.write64, value_storeLE]
  by_cases hr : r = r'
  · rw [hr, Function.update_self, Function.update_self]
  · rw [Function.update_of_ne hr, Function.update_of_ne hr]
    exact halone bus.accesses bus.mem

/-- So it does when the new value is computed from the one just read. -/
theorem value_modify64 (f : UInt64 → UInt64) :
    regs.value ((bus.read64 hw (regs.addr r')).2.write64 hw (regs.addr r')
        (f (bus.read64 hw (regs.addr r')).1)).mem r =
      Function.update (regs.value bus.mem) r' (f (regs.value bus.mem r')) r := by
  rw [halone.value_write64]
  by_cases hr : r = r'
  · subst hr
    rw [Function.update_self, Function.update_self, halone.read64]
  · rw [Function.update_of_ne hr, Function.update_of_ne hr, halone.value_read64]

end LeftAlone

end RegisterMap

end MyOSKernel
