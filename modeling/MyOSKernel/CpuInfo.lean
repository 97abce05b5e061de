import MyOSKernel.X86

/-! What `cpu/cpu.c` reads off the answers of `cpuid`: `_check_cpu_state` and `CPU_init`. Leaf 1 packs
the model into fields of its registers, which `CPU_init` shifts out one after the other. The extension
of the model is added by the wrong rule, and the flag kept in eight bits is always lost. -/

namespace MyOSKernel

open X86

/-- `test_bit(var, pos)`. -/
def testBit (var : BitVec 32) (pos : Nat) : BitVec 32 := var &&& 1#32 <<< pos

inductive CpuStatus where
  | success
  | noLongMode
  | noFpu
  | noApic
  | noMsr
  deriving DecidableEq

/-- `_check_cpu_state`, on the answers to the leaves; those asked for have no subleaves. -/
def checkCpuState (answer : BitVec 32 → CpuidResult) : CpuStatus :=
  let edx := (answer 1).edx
  if testBit edx 0 = 0 then .noFpu
  else if testBit edx 5 = 0 then .noMsr
  else if testBit edx 9 = 0 then .noApic
  else
    let edx := (answer 0x80000001).edx
    if testBit edx 29 = 0 then .noLongMode else .success

structure Cpu where
  manufacturer : Vector (BitVec 8) 13
  steppingId : BitVec 4
  type : BitVec 2
  modelId : BitVec 16
  familyId : BitVec 16
  brand : Vector (BitVec 8) 49
  hyperthreading : BitVec 8
  physicalCores : BitVec 8
  logicalCores : BitVec 8

/-- The four bytes `memcpy` takes from a variable. -/
def registerBytes (v : BitVec 32) : Vector (BitVec 8) 4 :=
  Vector.ofFn fun k => v.extractLsb' (8 * k) 8

/-- A third of the brand. The pointers to `ecx` and `edx` are passed in each other's place, and the
variables copied in each other's place. -/
def brandPart (result : CpuidResult) : Vector (BitVec 8) 16 :=
  let edx := result.ecx
  let ecx := result.edx
  registerBytes result.eax ++ registerBytes result.ebx ++ registerBytes edx ++ registerBytes ecx

/-- `_get_cpu_brand`. -/
def getCpuBrand (answer : BitVec 32 → CpuidResult) : Vector (BitVec 8) 49 :=
  (brandPart (answer 0x80000002) ++ brandPart (answer 0x80000003) ++
    brandPart (answer 0x80000004)).push 0

/-- `CPU_init`. A `bool` is a `uint8_t`. -/
def cpuInit (answer : BitVec 32 → CpuidResult) : Cpu :=
  let vendor := answer 0
  let manufacturer : Vector (BitVec 8) 13 :=
    (registerBytes vendor.ebx ++ registerBytes vendor.edx ++ registerBytes vendor.ecx).push 0
  let eax := (answer 1).eax
  let ebx := (answer 1).ebx
  let edx := (answer 1).edx
  let steppingId : BitVec 4 := (eax &&& 0xf).setWidth 4
  let eax := eax >>> 4
  let modelId : BitVec 16 := (eax &&& 0xf).setWidth 16
  let eax := eax >>> 4
  let familyId : BitVec 16 := (eax &&& 0xf).setWidth 16
  let eax := eax >>> 4
  let type : BitVec 2 := (eax &&& 0x3).setWidth 2
  let eax := eax >>> 4
  -- Extended model id
  let modelId := if modelId = 0xf then modelId + (eax &&& 0xf).setWidth 16 else modelId
  let eax := eax >>> 4
  -- Extended family id
  let familyId := if familyId = 0xf then familyId + (eax &&& 0xff).setWidth 16 else familyId
  let brand := getCpuBrand answer
  let logicalCores : BitVec 8 := (ebx >>> 16 &&& 0xff).setWidth 8
  let hyperthreading : BitVec 8 := (testBit edx 28).setWidth 8
  let ecx := (answer 0x80000008).ecx
  let physicalCores : BitVec 8 := ecx.setWidth 8 + 1
  { manufacturer, steppingId, type, modelId, familyId, brand, hyperthreading, physicalCores,
    logicalCores }

/-- Bits `hi` to `lo` of a register. -/
def field (v : BitVec 32) (hi lo : Nat) : Nat := (v.extractLsb hi lo).toNat

/-- The record agrees with the answer to leaf 1. -/
structure Identifies (leaf1 : CpuidResult) (cpu : Cpu) : Prop where
  steppingId : cpu.steppingId.toNat = field leaf1.eax 3 0
  type : cpu.type.toNat = field leaf1.eax 13 12
  familyId : cpu.familyId.toNat = field leaf1.eax 11 8 +
    if field leaf1.eax 11 8 = 0xf then field leaf1.eax 27 20 else 0
  modelId : cpu.modelId.toNat = field leaf1.eax 7 4 +
    if field leaf1.eax 11 8 = 6 ∨ field leaf1.eax 11 8 = 0xf then 16 * field leaf1.eax 19 16 else 0
  logicalCores : cpu.logicalCores.toNat = field leaf1.ebx 23 16
  hyperthreading : cpu.hyperthreading ≠ 0 ↔ leaf1.edx.getLsbD 28 = true

/-- The extension of the model is zero or the model is one without, by the rule of the encoding and by
that of the code. -/
def ModelUnextended (eax : BitVec 32) : Prop :=
  field eax 19 16 = 0 ∨ (field eax 7 4 ≠ 0xf ∧ field eax 11 8 ≠ 6 ∧ field eax 11 8 ≠ 0xf)

section Fields
variable {v : BitVec 32} {hi lo n : Nat}

theorem field_lt : field v hi lo < 2 ^ (hi - lo + 1) := (v.extractLsb hi lo).isLt

/-- A shift and a mask take out a field. -/
theorem masked_toNat {mask : BitVec 32} (hmask : mask.toNat = 2 ^ (hi - lo + 1) - 1)
    (hn : hi - lo + 1 ≤ n) : ((v >>> lo &&& mask).setWidth n).toNat = field v hi lo := by
  have hlt : v.toNat >>> lo % 2 ^ (hi - lo + 1) < 2 ^ n :=
    (Nat.mod_lt _ (Nat.two_pow_pos _)).trans_le (Nat.pow_le_pow_right (by decide) hn)
  rw [BitVec.toNat_setWidth, BitVec.toNat_and, BitVec.toNat_ushiftRight, hmask,
    Nat.and_two_pow_sub_one_eq_mod, Nat.mod_eq_of_lt hlt, field, BitVec.extractLsb_toNat]

theorem testBit_eq_zero_iff (hn : n < 32) : testBit v n = 0 ↔ v.getLsbD n = false := by
  have hne : BitVec.twoPow 32 n ≠ 0 := by
    intro h
    have hbit := congrArg (fun w => w.getLsbD n) h
    simp [hn] at hbit
  rw [testBit, ← BitVec.twoPow_eq, BitVec.and_twoPow]
  cases v.getLsbD n with
  | false => exact iff_of_true rfl rfl
  | true => exact iff_of_false hne Bool.noConfusion

/-- A bit above the eighth is lost in eight. -/
theorem testBit_setWidth (hn : 8 ≤ n) : (testBit v n).setWidth 8 = 0 := by
  have hlow : (1#32 <<< n).setWidth 8 = 0#8 := by
    apply BitVec.eq_of_getLsbD_eq
    intro i hi
    rw [BitVec.getLsbD_setWidth, BitVec.getLsbD_shiftLeft, decide_eq_true (show i < n by omega),
      Bool.not_true, Bool.and_false, Bool.false_and, Bool.and_false, BitVec.getLsbD_zero]
  rw [testBit, BitVec.setWidth_and, hlow, BitVec.and_zero]
  rfl

/-- An extension that is added when the field is full. -/
theorem extended_toNat (base : BitVec 16) {ext : BitVec 16} (hext : ext.toNat < 2 ^ 8) :
    (if base = 0xf then base + ext else base).toNat =
      base.toNat + if base.toNat = 0xf then ext.toNat else 0 := by
  by_cases hfull : base = 0xf
  · have hbase : base.toNat = 0xf := congrArg BitVec.toNat hfull
    rw [if_pos hfull, if_pos hbase, BitVec.toNat_add, Nat.mod_eq_of_lt (by omega)]
  · have hbase : base.toNat ≠ 0xf := fun h => hfull (BitVec.eq_of_toNat_eq h)
    rw [if_neg hfull, if_neg hbase, Nat.add_zero]

end Fields

section Init
variable {answer : BitVec 32 → CpuidResult}

/-- The kernel goes on exactly with an FPU, MSRs, an APIC and long mode. -/
theorem checkCpuState_eq_success_iff : checkCpuState answer = .success ↔
    (answer 1).edx.getLsbD 0 = true ∧ (answer 1).edx.getLsbD 5 = true ∧
      (answer 1).edx.getLsbD 9 = true ∧ (answer 0x80000001).edx.getLsbD 29 = true := by
  have hbit {v : BitVec 32} {n : Nat} (hn : n < 32) : ¬testBit v n = 0 ↔ v.getLsbD n = true := by
    rw [testBit_eq_zero_iff hn, Bool.not_eq_false]
  rw [← hbit (by decide), ← hbit (by decide), ← hbit (by decide), ← hbit (by decide)]
  simp only [checkCpuState]
  split_ifs with hfpu hmsr hapic hlong
  · exact iff_of_false not_false fun h => h.1 hfpu
  · exact iff_of_false not_false fun h => h.2.1 hmsr
  · exact iff_of_false not_false fun h => h.2.2.1 hapic
  · exact iff_of_false not_false fun h => h.2.2.2 hlong
  · exact iff_of_true rfl ⟨hfpu, hmsr, hapic, hlong⟩

theorem cpuInit_steppingId : (cpuInit answer).steppingId.toNat = field (answer 1).eax 3 0 := by
  have hmasked : (((answer 1).eax >>> 0 &&& 0xf).setWidth 4).toNat = field (answer 1).eax 3 0 :=
    masked_toNat rfl (by decide)
  rwa [BitVec.ushiftRight_zero] at hmasked

theorem cpuInit_type : (cpuInit answer).type.toNat = field (answer 1).eax 13 12 := by
  have hstored : (cpuInit answer).type =
      ((answer 1).eax >>> 4 >>> 4 >>> 4 &&& 0x3).setWidth 2 := rfl
  rw [hstored, ← BitVec.shiftRight_add, ← BitVec.shiftRight_add]
  exact masked_toNat rfl (by decide)

theorem cpuInit_familyId : (cpuInit answer).familyId.toNat = field (answer 1).eax 11 8 +
    if field (answer 1).eax 11 8 = 0xf then field (answer 1).eax 27 20 else 0 := by
  have hbase : (((answer 1).eax >>> (4 + 4) &&& 0xf).setWidth 16).toNat = field (answer 1).eax 11 8 :=
    masked_toNat rfl (by decide)
  have hext : (((answer 1).eax >>> (4 + 4 + 4 + 4 + 4) &&& 0xff).setWidth 16).toNat =
      field (answer 1).eax 27 20 := masked_toNat rfl (by decide)
  simp only [BitVec.shiftRight_add] at hbase hext
  have hlt : field (answer 1).eax 27 20 < 2 ^ 8 := field_lt
  have hstored := extended_toNat (((answer 1).eax >>> 4 >>> 4 &&& 0xf).setWidth 16)
    (hext.trans_lt hlt)
  rw [hbase, hext] at hstored
  exact hstored

/-- The extension is added to a full model, whatever the family, and not as its high digit. -/
theorem cpuInit_modelId : (cpuInit answer).modelId.toNat = field (answer 1).eax 7 4 +
    if field (answer 1).eax 7 4 = 0xf then field (answer 1).eax 19 16 else 0 := by
  have hbase : (((answer 1).eax >>> 4 &&& 0xf).setWidth 16).toNat = field (answer 1).eax 7 4 :=
    masked_toNat rfl (by decide)
  have hext : (((answer 1).eax >>> (4 + 4 + 4 + 4) &&& 0xf).setWidth 16).toNat =
      field (answer 1).eax 19 16 := masked_toNat rfl (by decide)
  simp only [BitVec.shiftRight_add] at hext
  have hlt : field (answer 1).eax 19 16 < 2 ^ 4 := field_lt
  have hstored := extended_toNat (((answer 1).eax >>> 4 &&& 0xf).setWidth 16)
    ((hext.trans_lt hlt).trans (by decide))
  rw [hbase, hext] at hstored
  exact hstored

theorem cpuInit_logicalCores : (cpuInit answer).logicalCores.toNat = field (answer 1).ebx 23 16 :=
  masked_toNat rfl (by decide)

theorem cpuInit_hyperthreading : (cpuInit answer).hyperthreading = 0 := testBit_setWidth (by decide)

/-- The two rules for the extension agree exactly when neither has anything to add. -/
theorem extensions_agree_iff {base family ext : Nat} :
    (base + if base = 0xf then ext else 0) =
        (base + if family = 6 ∨ family = 0xf then 16 * ext else 0) ↔
      ext = 0 ∨ (base ≠ 0xf ∧ family ≠ 6 ∧ family ≠ 0xf) := by
  split_ifs <;> omega

/-- `CPU_init` identifies the processor exactly when the model is one without extension and the flag it
loses is not set. -/
theorem cpu_init_identifies_iff (answer : BitVec 32 → CpuidResult) :
    Identifies (answer 1) (cpuInit answer) ↔
      (answer 1).edx.getLsbD 28 = false ∧ ModelUnextended (answer 1).eax := by
  have hmodel : (cpuInit answer).modelId.toNat = field (answer 1).eax 7 4 +
      (if field (answer 1).eax 11 8 = 6 ∨ field (answer 1).eax 11 8 = 0xf then
        16 * field (answer 1).eax 19 16 else 0) ↔ ModelUnextended (answer 1).eax := by
    rw [cpuInit_modelId]
    exact extensions_agree_iff
  have hflag : ((cpuInit answer).hyperthreading ≠ 0 ↔ (answer 1).edx.getLsbD 28 = true) ↔
      (answer 1).edx.getLsbD 28 = false := by
    rw [cpuInit_hyperthreading, ne_self_iff_false, false_iff, Bool.not_eq_true]
  constructor
  · intro h
    exact ⟨hflag.mp h.hyperthreading, hmodel.mp h.modelId⟩
  · intro h
    exact ⟨cpuInit_steppingId, cpuInit_type, cpuInit_familyId, hmodel.mpr h.2, cpuInit_logicalCores,
      hflag.mpr h.1⟩

end Init

/-- A processor of family 6 and model 0x3a with hyperthreading. -/
def family6 (leaf : BitVec 32) : CpuidResult :=
  if leaf = 1 then ⟨0x306a9, 0x100800, 0, 0xbfebfbff⟩ else ⟨0, 0, 0, 0⟩

/-- It is taken for model 10, without hyperthreading. -/
theorem cpu_init_misidentifies : ¬Identifies (family6 1) (cpuInit family6) := by
  intro h
  have hmodel := h.modelId
  rw [cpuInit_modelId] at hmodel
  exact absurd hmodel (by decide)

end MyOSKernel
