import MyOSKernel.EnablePaging

/-! `APIC_enable`, and setting bits of machine-specific registers in general: a register is read, `set_bit`
sets one of its bits, and it is written back. -/

namespace MyOSKernel

open X86

/-- `APIC_BASE_MSR`. -/
def apicBaseMsr : BitVec 32 := 0x1b

/-- `write_msr(n, set_bit(read_msr(n), pos))`. -/
def SetMsrBit (cpuid : Cpuid) (n : BitVec 32) (pos : Nat) (s s' : State) : Prop :=
  ∃ msr, CallsWith cpuid .readMsr (fun t => t.reg32 .rdi = n) s msr ∧
    CallsWith cpuid .writeMsr (fun t => t.reg32 .rdi = n ∧ t.regs .rsi = setBit (msr.regs .rax) pos)
      msr s'

/-- `APIC_enable`. -/
def ApicEnable (cpuid : Cpuid) (s s' : State) : Prop := SetMsrBit cpuid apicBaseMsr 11 s s'

/-- Bits are set one after the other. -/
inductive SetsMsrBits (cpuid : Cpuid) : List (BitVec 32 × Nat) → State → State → Prop
  | nil (s : State) : SetsMsrBits cpuid [] s s
  | cons {bits : List (BitVec 32 × Nat)} {n : BitVec 32} {pos : Nat} {s t s' : State}
      (hbit : SetMsrBit cpuid n pos s t) (hrest : SetsMsrBits cpuid bits t s') :
      SetsMsrBits cpuid ((n, pos) :: bits) s s'

section Run
variable {cpuid : Cpuid} {bits : List (BitVec 32 × Nat)} {n : BitVec 32} {pos : Nat} {s s' : State}

theorem setMsrBit_spec (h : SetMsrBit cpuid n pos s s') : s'.controls = s.controls ∧
    s'.msrs = Function.update s.msrs n (setBit (s.msrs n) pos) := by
  obtain ⟨msr, ⟨t, hcontrols, hmsrs, hrdi, hread⟩, t', hcontrols', hmsrs', ⟨hrdi', hrsi⟩, hwrite⟩ := h
  obtain ⟨hrax, hkept, hkeptMsrs⟩ := readMsr_spec hread
  obtain ⟨hwritten, hkept'⟩ := writeMsr_spec hwrite
  constructor
  · calc s'.controls = t'.controls := hkept'
      _ = msr.controls := hcontrols'
      _ = t.controls := hkept
      _ = s.controls := hcontrols
  · rw [hwritten, hrdi', hrsi, hrax, hrdi, hmsrs', hkeptMsrs, hmsrs]

/-- The routines are straight lines of instructions. -/
theorem exists_setMsrBit (cpuid : Cpuid) (n : BitVec 32) (pos : Nat) (s : State) :
    ∃ s', SetMsrBit cpuid n pos s s' := by
  have hcall {ops : List Op} (t : State) :
      Returns cpuid (block ops ++ [.ret] : List (Line AsmLabel)) (block ops ++ [.ret]) t
        (execAll cpuid ops t).ret := returns_block_ret.mpr rfl
  exact ⟨_, _, ⟨withArguments s (n.setWidth 64) 0, rfl, rfl, setWidth_setWidth_low _, hcall _⟩,
    ⟨withArguments _ (n.setWidth 64) _, rfl, rfl, ⟨setWidth_setWidth_low _, rfl⟩, hcall _⟩⟩

theorem exists_setsMsrBits (cpuid : Cpuid) (bits : List (BitVec 32 × Nat)) (s : State) :
    ∃ s', SetsMsrBits cpuid bits s s' := by
  induction bits generalizing s with
  | nil => exact ⟨s, .nil s⟩
  | cons bit bits ih =>
      obtain ⟨t, hbit⟩ := exists_setMsrBit cpuid bit.1 bit.2 s
      obtain ⟨s', hrest⟩ := ih t
      exact ⟨s', .cons hbit hrest⟩

theorem setsMsrBits_spec (h : SetsMsrBits cpuid bits s s') (hpos : ∀ bit ∈ bits, bit.2 < 31) :
    s'.controls = s.controls ∧ ∀ n, ∀ i < 64,
      (s'.msrs n).getLsbD i = ((s.msrs n).getLsbD i || decide ((n, i) ∈ bits)) := by
  induction h with
  | nil s => exact ⟨rfl, fun n i _ => by simp⟩
  | cons hbit hrest ih =>
      rename_i bits n pos s t s'
      obtain ⟨hcontrols, hmsrs⟩ := setMsrBit_spec hbit
      obtain ⟨hcontrols', hmsrs'⟩ := ih fun bit hmem => hpos bit (List.mem_cons_of_mem _ hmem)
      have hpos' : pos < 31 := hpos (n, pos) List.mem_cons_self
      refine ⟨hcontrols'.trans hcontrols, fun k i hi => ?_⟩
      rw [hmsrs' k i hi, hmsrs]
      by_cases hk : k = n
      · rw [hk, Function.update_self, setBit_getLsbD hpos' hi, Bool.or_assoc]
        congr 1
        simp
      · rw [Function.update_of_ne hk]
        congr 1
        simp [hk]

/-- **Bits of machine-specific registers are set and nothing else.** However many bits below 31 the
kernel sets, in whatever registers and order, all calls return, and in the end exactly these bits have
been added to the registers; the control registers are as before. -/
theorem msr_bits_set (cpuid : Cpuid) (bits : List (BitVec 32 × Nat)) (hpos : ∀ bit ∈ bits, bit.2 < 31)
    (s : State) : (∃ s', SetsMsrBits cpuid bits s s') ∧ ∀ s', SetsMsrBits cpuid bits s s' →
      s'.controls = s.controls ∧ ∀ n, ∀ i < 64,
        (s'.msrs n).getLsbD i = ((s.msrs n).getLsbD i || decide ((n, i) ∈ bits)) :=
  ⟨exists_setsMsrBits cpuid bits s, fun _ hrun => setsMsrBits_spec hrun hpos⟩

/-- `APIC_enable` sets one bit of one register. -/
example (h : ApicEnable cpuid s s') : SetsMsrBits cpuid [(apicBaseMsr, 11)] s s' := .cons h (.nil s')

end Run

/-- LME and the enable bit of the APIC, as the kernel sets them when it starts. -/
theorem msr_bits_set_startup :
    ∃ s', SetsMsrBits smallCpuid [(ia32Efer, eferLme), (apicBaseMsr, 11)] firmwareState s' ∧
      (s'.msrs apicBaseMsr).getLsbD 11 = true := by
  obtain ⟨⟨s', hrun⟩, hbits⟩ := msr_bits_set smallCpuid [(ia32Efer, eferLme), (apicBaseMsr, 11)]
    (by decide) firmwareState
  refine ⟨s', hrun, ?_⟩
  rw [(hbits s' hrun).2 apicBaseMsr 11 (by decide)]
  decide

end MyOSKernel
