import MyOSKernel.AsmRoutines

/-! The registers `init_paging` sets before it builds the tables: `_enable_cpu_4_level_paging` is to set
CR0.PG and CR4.PAE and to clear CR4.LA57, and `set_bit` sets IA32_EFER.LME. The routine sets bit 31 of
CR4 where it names CR0 and clears bit 57 of CR4 where LA57 is bit 12. -/

namespace MyOSKernel

open X86

/-- `IA32_EFER`. -/
def ia32Efer : BitVec 32 := 0xC0000080

/-- `EFER_LME`. -/
def eferLme : Nat := 8

/-- `set_bit(var, pos)`: the one that is shifted is an `int`. -/
def setBit (var : BitVec 64) (pos : Nat) : BitVec 64 := var ||| (1#32 <<< pos).signExtend 64

/-- C code calls a routine in `s`, with the arguments in their registers, and it returns in `s'`. The C
code itself leaves the control and machine-specific registers alone. -/
def CallsWith (cpuid : Cpuid) (routine : AsmRoutine) (arguments : State → Prop) (s s' : State) : Prop :=
  ∃ t, t.controls = s.controls ∧ t.msrs = s.msrs ∧ arguments t ∧ routine.Call cpuid t s'

/-- The calls at the start of `init_paging`. -/
def InitPagingRegisters (cpuid : Cpuid) (s s' : State) : Prop :=
  ∃ enabled msr,
    CallsWith cpuid .enableCpu4LevelPaging (fun _ => True) s enabled ∧
    CallsWith cpuid .readMsr (fun t => t.reg32 .rdi = ia32Efer) enabled msr ∧
    CallsWith cpuid .writeMsr
      (fun t => t.reg32 .rdi = ia32Efer ∧ t.regs .rsi = setBit (msr.regs .rax) eferLme) msr s'

/-- The bits of `new` have the wanted values where there is one, and otherwise those of `old`. -/
def SetsBits (wanted : Nat → Option Bool) (old new : BitVec 64) : Prop :=
  ∀ i < 64, new.getLsbD i = (wanted i).getD (old.getLsbD i)

/-- PG. -/
def cr0Bits (i : Nat) : Option Bool := if i = 31 then some true else none

/-- PAE and LA57. -/
def cr4Bits (i : Nat) : Option Bool :=
  if i = 5 then some true else if i = 12 then some false else none

/-- LME. -/
def eferBits (i : Nat) : Option Bool := if i = 8 then some true else none

/-- Between `s` and `s'` 4-level paging is enabled and no other bit of the three registers changes. -/
structure EnablesPaging (s s' : State) : Prop where
  cr0 : SetsBits cr0Bits (s.controls .cr0) (s'.controls .cr0)
  cr4 : SetsBits cr4Bits (s.controls .cr4) (s'.controls .cr4)
  efer : SetsBits eferBits (s.msrs ia32Efer) (s'.msrs ia32Efer)

/-- The calls return, and however they do 4-level paging is enabled. -/
def InitPagingEnables (cpuid : Cpuid) (s : State) : Prop :=
  (∃ s', InitPagingRegisters cpuid s s') ∧ ∀ s', InitPagingRegisters cpuid s s' → EnablesPaging s s'

/-- The bits the routine misses are already right, and so are those it hits in their place. -/
structure BitsPrepared (s : State) : Prop where
  pg : (s.controls .cr0).getLsbD 31 = true
  la57 : (s.controls .cr4).getLsbD 12 = false
  bit31 : (s.controls .cr4).getLsbD 31 = true
  bit57 : (s.controls .cr4).getLsbD 57 = false

section Bits
variable {v : BitVec 64} {pos i : Nat}

/-- The two halves of a machine-specific register, as `wrmsr` takes them. -/
theorem halves_append (v : BitVec 64) : (v >>> 32).setWidth 32 ++ v.setWidth 32 = v := by
  apply BitVec.eq_of_getLsbD_eq
  intro i hi
  rw [BitVec.getLsbD_append]
  split_ifs with hlow
  · rw [BitVec.getLsbD_setWidth, decide_eq_true hlow, Bool.true_and]
  · rw [BitVec.getLsbD_setWidth, BitVec.getLsbD_ushiftRight, decide_eq_true (by omega),
      Bool.true_and, Nat.add_sub_cancel' (by omega)]

/-- The two halves that `rdmsr` gives, put together. -/
theorem halves_or (v : BitVec 64) :
    (v.setWidth 32).setWidth 64 ||| ((v >>> 32).setWidth 32).setWidth 64 <<< 32 = v := by
  apply BitVec.eq_of_getLsbD_eq
  intro i hi
  simp only [BitVec.getLsbD_or, BitVec.getLsbD_shiftLeft, BitVec.getLsbD_setWidth,
    BitVec.getLsbD_ushiftRight]
  by_cases hlow : i < 32
  · simp [hlow, hi]
  · have hhigh : i - 32 < 32 := by omega
    have hlt : i - 32 < 64 := by omega
    have hadd : 32 + (i - 32) = i := by omega
    simp [hlow, hi, hhigh, hlt, hadd]

theorem getLsbD_one_shiftLeft (hi : i < 64) :
    (1#64 <<< pos).getLsbD i = decide (i = pos) := by
  rw [BitVec.getLsbD_shiftLeft, BitVec.getLsbD_one]
  grind

/-- Below the sign of an `int` only the bit asked for is set. -/
theorem setBit_getLsbD (hpos : pos < 31) (hi : i < 64) :
    (setBit v pos).getLsbD i = (v.getLsbD i || decide (i = pos)) := by
  have hmsb : (1#32 <<< pos).msb = false := by
    rw [BitVec.msb_eq_getLsbD_last, BitVec.getLsbD_shiftLeft, BitVec.getLsbD_one]
    grind
  rw [setBit, BitVec.getLsbD_or, BitVec.getLsbD_signExtend, hmsb, BitVec.getLsbD_shiftLeft,
    BitVec.getLsbD_one]
  grind

/-- The register CR4 as the routine leaves it. -/
def enabledCr4 (cr4 : BitVec 64) : BitVec 64 :=
  (cr4 ||| 1#64 <<< 31 ||| 1#64 <<< 5) &&& ~~~(1#64 <<< 57)

theorem enabledCr4_getLsbD (hi : i < 64) : (enabledCr4 v).getLsbD i =
    ((v.getLsbD i || decide (i = 31) || decide (i = 5)) && !decide (i = 57)) := by
  rw [enabledCr4, BitVec.getLsbD_and, BitVec.getLsbD_or, BitVec.getLsbD_or, BitVec.getLsbD_not,
    getLsbD_one_shiftLeft hi, getLsbD_one_shiftLeft hi, getLsbD_one_shiftLeft hi, decide_eq_true hi,
    Bool.true_and]

theorem setsBits_cr0_iff : SetsBits cr0Bits v v ↔ v.getLsbD 31 = true := by
  constructor
  · intro h
    exact h 31 (by decide)
  · intro h i hi
    unfold cr0Bits
    by_cases hpg : i = 31
    · rw [if_pos hpg, hpg]
      exact h
    · rw [if_neg hpg]
      rfl

/-- PAE is set for every CR4; the other three bits have to be right before. -/
theorem setsBits_cr4_iff : SetsBits cr4Bits v (enabledCr4 v) ↔
    v.getLsbD 12 = false ∧ v.getLsbD 31 = true ∧ v.getLsbD 57 = false := by
  constructor
  · intro h
    have hla57 := h 12 (by decide)
    have hbit31 := h 31 (by decide)
    have hbit57 := h 57 (by decide)
    rw [enabledCr4_getLsbD (by decide)] at hla57 hbit31 hbit57
    exact ⟨by simpa [cr4Bits] using hla57, by simpa [cr4Bits] using hbit31.symm,
      by simpa [cr4Bits] using hbit57.symm⟩
  · intro h i hi
    obtain ⟨hla57, hbit31, hbit57⟩ := h
    rw [enabledCr4_getLsbD hi]
    unfold cr4Bits
    by_cases hpae : i = 5
    · simp [hpae]
    by_cases hi12 : i = 12
    · subst hi12
      simpa using hla57
    by_cases hi31 : i = 31
    · subst hi31
      simpa using hbit31
    by_cases hi57 : i = 57
    · subst hi57
      simpa using hbit57
    · simp [hpae, hi12, hi31, hi57]

theorem setsBits_efer : SetsBits eferBits v (setBit v eferLme) := by
  intro i hi
  rw [setBit_getLsbD (by decide) hi]
  unfold eferBits eferLme
  by_cases hlme : i = 8
  · simp [hlme]
  · simp [hlme]

end Bits

section Calls
variable {cpuid : Cpuid} {s s' t : State}

theorem enablePaging_spec (h : AsmRoutine.enableCpu4LevelPaging.Call cpuid s s') :
    s'.controls .cr0 = s.controls .cr0 ∧ s'.controls .cr4 = enabledCr4 (s.controls .cr4) ∧
      s'.msrs = s.msrs := by
  have hreturn : s' = (execAll cpuid enablePagingOps s).ret := returns_block_ret.mp h
  have hcr4 : (execAll cpuid enablePagingOps s).controls .cr4 =
      (execAll cpuid enablePagingOps s).regs .rbx := rfl
  rw [hreturn, ret_controls, ret_msrs, hcr4, enablePaging_rbx]
  exact ⟨rfl, rfl, rfl⟩

theorem readMsr_spec (h : AsmRoutine.readMsr.Call cpuid s s') :
    s'.regs .rax = s.msrs (s.reg32 .rdi) ∧ s'.controls = s.controls ∧ s'.msrs = s.msrs := by
  have hreturn : s' = (execAll cpuid readMsrOps s).ret := returns_block_ret.mp h
  have hrax : (execAll cpuid readMsrOps s).regs .rax =
      ((s.msrs (((s.reg32 .rdi).setWidth 64).setWidth 32)).setWidth 32).setWidth 64 |||
        ((s.msrs (((s.reg32 .rdi).setWidth 64).setWidth 32) >>> 32).setWidth 32).setWidth 64 <<< 32 := rfl
  rw [hreturn, ret_regs, regs_drop_of_ne (by decide), hrax, setWidth_setWidth_low, halves_or,
    ret_controls, ret_msrs]
  exact ⟨rfl, rfl, rfl⟩

theorem writeMsr_spec (h : AsmRoutine.writeMsr.Call cpuid s s') :
    s'.msrs = Function.update s.msrs (s.reg32 .rdi) (s.regs .rsi) ∧ s'.controls = s.controls := by
  have hreturn : s' = (execAll cpuid writeMsrOps s).ret := returns_block_ret.mp h
  have hmsrs : (execAll cpuid writeMsrOps s).msrs =
      Function.update s.msrs (((s.reg32 .rdi).setWidth 64).setWidth 32)
        ((s.regs .rsi >>> 32).setWidth 32 ++ (((s.regs .rsi).setWidth 32).setWidth 64).setWidth 32) := rfl
  rw [hreturn, ret_msrs, hmsrs, setWidth_setWidth_low, setWidth_setWidth_low, halves_append,
    ret_controls]
  exact ⟨rfl, rfl⟩

/-- What the three calls do to the registers together. -/
theorem initPagingRegisters_spec (h : InitPagingRegisters cpuid s s') :
    s'.controls .cr0 = s.controls .cr0 ∧ s'.controls .cr4 = enabledCr4 (s.controls .cr4) ∧
      s'.msrs ia32Efer = setBit (s.msrs ia32Efer) eferLme := by
  obtain ⟨enabled, msr, ⟨t, hcontrols, hmsrs, -, henable⟩, ⟨t', hcontrols', hmsrs', hrdi, hread⟩,
    ⟨t'', hcontrols'', -, ⟨hrdi', hrsi⟩, hwrite⟩⟩ := h
  obtain ⟨hcr0, hcr4, hkept⟩ := enablePaging_spec henable
  obtain ⟨hrax, hkept', -⟩ := readMsr_spec hread
  obtain ⟨hwritten, hkept''⟩ := writeMsr_spec hwrite
  have hall : s'.controls = enabled.controls :=
    calc s'.controls = t''.controls := hkept''
      _ = msr.controls := hcontrols''
      _ = t'.controls := hkept'
      _ = enabled.controls := hcontrols'
  have hmsr : msr.regs .rax = s.msrs ia32Efer := by rw [hrax, hrdi, hmsrs', hkept, hmsrs]
  refine ⟨?_, ?_, ?_⟩
  · rw [hall, hcr0, hcontrols]
  · rw [hall, hcr4, hcontrols]
  · rw [hwritten, hrdi', Function.update_self, hrsi, hmsr]

/-- A state in which a routine is called with its arguments. -/
def withArguments (s : State) (rdi rsi : BitVec 64) : State := (s.setReg .rdi rdi).setReg .rsi rsi

/-- The routines are straight lines of instructions, so the calls return. -/
theorem exists_initPagingRegisters (cpuid : Cpuid) (s : State) :
    ∃ s', InitPagingRegisters cpuid s s' := by
  have hcall {ops : List Op} (t : State) :
      Returns cpuid (block ops ++ [.ret] : List (Line AsmLabel)) (block ops ++ [.ret]) t
        (execAll cpuid ops t).ret := returns_block_ret.mpr rfl
  exact ⟨_, _, _, ⟨s, rfl, rfl, trivial, hcall s⟩,
    ⟨withArguments _ (ia32Efer.setWidth 64) 0, rfl, rfl, setWidth_setWidth_low _, hcall _⟩,
    ⟨withArguments _ (ia32Efer.setWidth 64) _, rfl, rfl, ⟨setWidth_setWidth_low _, rfl⟩, hcall _⟩⟩

/-- Exactly when the bits have been prepared does the sequence set those it is to set and no other. -/
theorem init_paging_enables_iff (cpuid : Cpuid) (s : State) :
    InitPagingEnables cpuid s ↔ BitsPrepared s := by
  constructor
  · intro h
    obtain ⟨⟨s', hrun⟩, henables⟩ := h
    obtain ⟨hcr0, hcr4, -⟩ := initPagingRegisters_spec hrun
    have hbits : EnablesPaging s s' := henables s' hrun
    have hpg := hbits.cr0
    have hcr4bits := hbits.cr4
    rw [hcr0, setsBits_cr0_iff] at hpg
    rw [hcr4, setsBits_cr4_iff] at hcr4bits
    exact ⟨hpg, hcr4bits.1, hcr4bits.2.1, hcr4bits.2.2⟩
  · intro h
    refine ⟨exists_initPagingRegisters cpuid s, fun s' hrun => ?_⟩
    obtain ⟨hcr0, hcr4, hefer⟩ := initPagingRegisters_spec hrun
    refine ⟨?_, ?_, ?_⟩
    · rw [hcr0]
      exact setsBits_cr0_iff.mpr h.pg
    · rw [hcr4]
      exact setsBits_cr4_iff.mpr ⟨h.la57, h.bit31, h.bit57⟩
    · rw [hefer]
      exact setsBits_efer

end Calls

/-- Under firmware that has enabled paging, with `cr0 = 0x80010033` and `cr4 = 0x668`. -/
def firmwareState : State :=
  { callState with
    controls := fun
      | .cr0 => 0x80010033
      | .cr4 => 0x668
      | _ => 0
    msrs := fun _ => 0xd00 }

/-- A reserved bit of CR4 is set. -/
theorem init_paging_sets_reserved : ¬InitPagingEnables smallCpuid firmwareState := by
  intro h
  obtain ⟨⟨s', hrun⟩, henables⟩ := h
  have hcr4 : SetsBits cr4Bits 0x668 (s'.controls .cr4) := (henables s' hrun).cr4
  rw [(initPagingRegisters_spec hrun).2.1] at hcr4
  exact absurd (setsBits_cr4_iff.mp hcr4).2.1 (by decide)

end MyOSKernel
