import MyOSKernel.X86

/-! The assembly routines of `cpu.asm`, `paging.asm` and `gdt.asm`, and which of them keep the calling
convention they are called under. `get_cpuid` uses `rbx`, `r12` and `r13`, and
`_enable_cpu_4_level_paging` uses `rbx`, without saving them. -/

namespace MyOSKernel

open X86

/-- The labels of `get_cpuid`. -/
inductive AsmLabel where
  | checkEaxParam | checkEbxParam | checkEcxParam | checkEdxParam
  | returnLabel
  | retEaxParam | retEbxParam | retEcxParam | retEdxParam
  deriving DecidableEq

def saveArguments : List Op := [
  .mov .r10 .rsi,
  .mov .r11 .rdx,
  .mov .r12 .rcx,
  .mov .r13 .r8,
  .mov32 .rax .rdi,
  .cpuid]

/-- The checks of the parameters and what they jump to. -/
def returnParams : List (Line AsmLabel) := [
  .label .checkEaxParam,
  .op (.cmp .r10 0),
  .jne .retEaxParam,
  .label .checkEbxParam,
  .op (.cmp .r11 0),
  .jne .retEbxParam,
  .label .checkEcxParam,
  .op (.cmp .r12 0),
  .jne .retEcxParam,
  .label .checkEdxParam,
  .op (.cmp .r13 0),
  .jne .retEdxParam,
  .label .returnLabel,
  .ret,
  .label .retEaxParam,
  .op (.movToMem32 .r10 .rax),
  .jmp .checkEbxParam,
  .label .retEbxParam,
  .op (.movToMem32 .r11 .rbx),
  .jmp .checkEcxParam,
  .label .retEcxParam,
  .op (.movToMem32 .r12 .rcx),
  .jmp .checkEdxParam,
  .label .retEdxParam,
  .op (.movToMem32 .r13 .rdx),
  .jmp .returnLabel]

/-- `void get_cpuid(uint32_t cpuid_eax, uint32_t *eax, uint32_t *ebx, uint32_t *ecx, uint32_t *edx)`. -/
def getCpuid : List (Line AsmLabel) := block saveArguments ++ returnParams

def writeMsrOps : List Op := [
  .mov32 .rcx .rdi,
  .mov32 .rax .rsi,
  .mov .rdx .rsi,
  .shr .rdx 32,
  .wrmsr]

/-- `void write_msr(uint64_t msr_no, uint64_t value)`. -/
def writeMsr : List (Line AsmLabel) := block writeMsrOps ++ [.ret]

def readMsrOps : List Op := [
  .mov32 .rcx .rdi,
  .rdmsr,
  .shl .rdx 32,
  .or .rax .rdx]

/-- `uint64_t read_msr(uint64_t msr_no)`. -/
def readMsr : List (Line AsmLabel) := block readMsrOps ++ [.ret]

def enablePagingOps : List Op := [
  -- cr0.PG = 1
  .movImm .rax 1,
  .shl .rax 31,
  .movFromControl .rbx .cr4,
  .or .rbx .rax,
  .movToControl .cr4 .rbx,
  -- cr4.PAE = 1
  .movImm .rax 1,
  .shl .rax 5,
  .movFromControl .rbx .cr4,
  .or .rbx .rax,
  .movToControl .cr4 .rbx,
  -- cr4.LA57 = 0
  .movImm .rax 1,
  .shl .rax 57,
  .movFromControl .rbx .cr4,
  .not .rbx,
  .or .rbx .rax,
  .not .rbx,
  .movToControl .cr4 .rbx,
  .xor .rax .rax]

/-- `void _enable_cpu_4_level_paging()`. -/
def enableCpu4LevelPaging : List (Line AsmLabel) := block enablePagingOps ++ [.ret]

def loadSegmentsOps : List Op := [
  .lgdt .rdi,
  .movImm16 .rax 0x10,
  .movToSeg .ds .rax,
  .movToSeg .es .rax,
  .movToSeg .fs .rax,
  .movToSeg .gs .rax,
  .movToSeg .ss .rax]

/-- Puts 0x08:ret_addr on the stack. -/
def farReturnOps : List Op := [
  .pop .rdi,
  .movImm .rax 0x08,
  .push .rax,
  .push .rdi]

/-- `void load_gdt(GDTR *gdtr_ptr)`. -/
def loadGdt : List (Line AsmLabel) := block loadSegmentsOps ++ (block farReturnOps ++ [.retfq])

inductive AsmRoutine where
  | getCpuid | writeMsr | readMsr | enableCpu4LevelPaging | loadGdt

def AsmRoutine.lines : AsmRoutine → List (Line AsmLabel)
  | getCpuid => MyOSKernel.getCpuid
  | writeMsr => MyOSKernel.writeMsr
  | readMsr => MyOSKernel.readMsr
  | enableCpu4LevelPaging => MyOSKernel.enableCpu4LevelPaging
  | loadGdt => MyOSKernel.loadGdt

/-- The routine is called in `s` and returns in `s'`. -/
def AsmRoutine.Call (cpuid : Cpuid) (routine : AsmRoutine) (s s' : State) : Prop :=
  Returns cpuid routine.lines routine.lines s s'

/-- An output is stored when its pointer is not `NULL`. -/
def storeOutput (m : Memory) (o : BitVec 64 × BitVec 32) : Memory :=
  if o.1 = 0 then m else m.storeLE o.1.toNat o.2.toNat 4

def storeOutputs (m : Memory) (outputs : List (BitVec 64 × BitVec 32)) : Memory :=
  outputs.foldl storeOutput m

/-- The bytes of an output. -/
def outputBytes (o : BitVec 64 × BitVec 32) : Set Nat :=
  {b | o.1 ≠ 0 ∧ b ∈ Set.Ico o.1.toNat (o.1.toNat + 4)}

/-- Each output that is asked for has its value, unless a later one overlaps it, and no other byte is
written. -/
structure WritesOutputs (outputs : List (BitVec 64 × BitVec 32)) (m m' : Memory) : Prop where
  stored : ∀ before o after, outputs = before ++ o :: after → o.1 ≠ 0 →
    (∀ o' ∈ after, ∀ b ∈ outputBytes o, b ∉ outputBytes o') →
      m'.loadLE o.1.toNat 4 = o.2.toNat
  kept : ∀ b, (∀ o ∈ outputs, b ∉ outputBytes o) → m'.byte b = m.byte b
  writes : ∀ b, b ∈ m'.writes ↔ (∃ o ∈ outputs, b ∈ outputBytes o) ∨ b ∈ m.writes

section Outputs
variable {m : Memory} {o : BitVec 64 × BitVec 32} {outputs : List (BitVec 64 × BitVec 32)} {b : Nat}

theorem storeOutput_byte (hb : b ∉ outputBytes o) : (storeOutput m o).byte b = m.byte b := by
  unfold storeOutput
  by_cases hnull : o.1 = 0
  · rw [if_pos hnull]
  · rw [if_neg hnull]
    exact Memory.storeLE_byte_of_notMem _ fun hc => hb ⟨hnull, hc⟩

theorem storeOutputs_byte (hb : ∀ o ∈ outputs, b ∉ outputBytes o) :
    (storeOutputs m outputs).byte b = m.byte b := by
  induction outputs generalizing m with
  | nil => rfl
  | cons o outputs ih =>
      have hrest : (storeOutputs (storeOutput m o) outputs).byte b = (storeOutput m o).byte b :=
        ih fun o' ho' => hb o' (List.mem_cons_of_mem o ho')
      exact hrest.trans (storeOutput_byte (hb o List.mem_cons_self))

theorem loadLE_storeOutput (hnull : o.1 ≠ 0) : (storeOutput m o).loadLE o.1.toNat 4 = o.2.toNat := by
  have hlt : o.2.toNat < 256 ^ 4 := o.2.isLt
  rw [storeOutput, if_neg hnull, Memory.loadLE_storeLE, Nat.mod_eq_of_lt hlt]

theorem mem_writes_storeOutput :
    b ∈ (storeOutput m o).writes ↔ b ∈ outputBytes o ∨ b ∈ m.writes := by
  unfold storeOutput
  by_cases hnull : o.1 = 0
  · rw [if_pos hnull]
    exact ⟨Or.inr, fun h => h.resolve_left fun hc => hc.1 hnull⟩
  · rw [if_neg hnull, Memory.mem_writes_storeLE]
    exact or_congr_left ⟨fun h => ⟨hnull, h⟩, fun h => h.2⟩

theorem mem_writes_storeOutputs : b ∈ (storeOutputs m outputs).writes ↔
    (∃ o ∈ outputs, b ∈ outputBytes o) ∨ b ∈ m.writes := by
  induction outputs generalizing m with
  | nil => simp [storeOutputs]
  | cons o outputs ih =>
      have hrest : b ∈ (storeOutputs m (o :: outputs)).writes ↔
          (∃ o ∈ outputs, b ∈ outputBytes o) ∨ b ∈ (storeOutput m o).writes := ih
      rw [hrest, mem_writes_storeOutput, List.exists_mem_cons_iff, ← or_assoc]
      apply or_congr_left
      exact or_comm

theorem writesOutputs_storeOutputs (m : Memory) (outputs : List (BitVec 64 × BitVec 32)) :
    WritesOutputs outputs m (storeOutputs m outputs) := by
  refine ⟨?_, fun b => storeOutputs_byte, fun b => mem_writes_storeOutputs⟩
  rintro before o after rfl hnull hapart
  rw [storeOutputs, List.foldl_append, List.foldl_cons, ← storeOutputs, ← storeOutputs]
  calc (storeOutputs (storeOutput (storeOutputs m before) o) after).loadLE o.1.toNat 4
      = (storeOutput (storeOutputs m before) o).loadLE o.1.toNat 4 := by
        apply Memory.loadLE_congr
        intro b hb
        apply storeOutputs_byte
        intro o' ho' hc
        exact hapart o' ho' b ⟨hnull, hb⟩ hc
    _ = o.2.toNat := loadLE_storeOutput hnull

end Outputs

section GetCpuid
variable {cpuid : Cpuid} {s s' : State}

/-- A state after `cmp p, 0` and, unless the pointer is `NULL`, the store of `v`. -/
def outputState (s : State) (p v : Reg) : State :=
  { s with
    zf := s.regs p == 0
    mem := storeOutput s.mem (s.regs p, s.reg32 v) }

/-- The check of a parameter and the lines it jumps to. -/
theorem returns_check (check ret next : AsmLabel) {p v : Reg} {tail : List (Line AsmLabel)}
    (hcheck : linesFrom getCpuid check =
      .label check :: .op (.cmp p 0) :: .jne ret :: linesFrom getCpuid next)
    (hret : linesFrom getCpuid ret = .label ret :: .op (.movToMem32 p v) :: .jmp next :: tail) :
    Returns cpuid getCpuid (linesFrom getCpuid check) s s' ↔
      Returns cpuid getCpuid (linesFrom getCpuid next) (outputState s p v) s' := by
  rw [hcheck, returns_label, returns_op]
  by_cases hnull : s.regs p = 0
  · have hzf : (s.regs p == 0) = true := beq_iff_eq.mpr hnull
    have hstate : (Op.cmp p 0).exec cpuid s = outputState s p v := by
      unfold outputState storeOutput
      rw [if_pos hnull]
      rfl
    rw [returns_jne_of_equal hzf, hstate]
  · have hzf : (s.regs p == 0) = false := beq_eq_false_iff_ne.mpr hnull
    have hstate : (Op.movToMem32 p v).exec cpuid ((Op.cmp p 0).exec cpuid s) = outputState s p v := by
      unfold outputState storeOutput
      rw [if_neg hnull]
      rfl
    rw [returns_jne_of_not_equal hzf, hret, returns_label, returns_op, returns_jmp, hstate]

/-- The state in which `get_cpuid` returns. -/
def outputsState (s : State) : State :=
  outputState (outputState (outputState (outputState s .r10 .rax) .r11 .rbx) .r12 .rcx) .r13 .rdx

theorem returns_getCpuid : Returns cpuid getCpuid getCpuid s s' ↔
    s' = (outputsState (execAll cpuid saveArguments s)).ret := by
  have hstart : Returns cpuid getCpuid getCpuid s s' ↔ Returns cpuid getCpuid
      (linesFrom getCpuid .checkEaxParam) (execAll cpuid saveArguments s) s' := returns_block
  have hend : linesFrom getCpuid .returnLabel =
      .label .returnLabel :: .ret :: linesFrom getCpuid .retEaxParam := rfl
  rw [hstart, returns_check .checkEaxParam .retEaxParam .checkEbxParam rfl rfl,
    returns_check .checkEbxParam .retEbxParam .checkEcxParam rfl rfl,
    returns_check .checkEcxParam .retEcxParam .checkEdxParam rfl rfl,
    returns_check .checkEdxParam .retEdxParam .returnLabel rfl rfl, hend, returns_label, returns_ret,
    outputsState]

/-- The answer of `cpuid` to the call. -/
def cpuidResult (cpuid : Cpuid) (s : State) : CpuidResult := cpuid (s.reg32 .rdi) (s.reg32 .rcx)

/-- The outputs in the order in which they are stored. -/
def cpuidOutputs (cpuid : Cpuid) (s : State) : List (BitVec 64 × BitVec 32) :=
  [(s.regs .rsi, (cpuidResult cpuid s).eax), (s.regs .rdx, (cpuidResult cpuid s).ebx),
    (s.regs .rcx, (cpuidResult cpuid s).ecx), (s.regs .r8, (cpuidResult cpuid s).edx)]

/-- The outputs are objects of the caller: they do not overlap the return address. -/
def OutputsApart (cpuid : Cpuid) (s : State) : Prop :=
  ∀ o ∈ cpuidOutputs cpuid s, ∀ b ∈ outputBytes o,
    b ∉ Set.Ico (s.regs .rsp).toNat ((s.regs .rsp).toNat + 8)

/-- The registers once the arguments are saved and `cpuid` has answered. -/
theorem regs_saveArguments (cpuid : Cpuid) (s : State) :
    (execAll cpuid saveArguments s).regs .r10 = s.regs .rsi ∧
    (execAll cpuid saveArguments s).regs .r11 = s.regs .rdx ∧
    (execAll cpuid saveArguments s).regs .r12 = s.regs .rcx ∧
    (execAll cpuid saveArguments s).regs .r13 = s.regs .r8 ∧
    (execAll cpuid saveArguments s).regs .rax = (cpuidResult cpuid s).eax.setWidth 64 ∧
    (execAll cpuid saveArguments s).regs .rbx = (cpuidResult cpuid s).ebx.setWidth 64 ∧
    (execAll cpuid saveArguments s).regs .rcx = (cpuidResult cpuid s).ecx.setWidth 64 ∧
    (execAll cpuid saveArguments s).regs .rdx = (cpuidResult cpuid s).edx.setWidth 64 := by
  have hresult : cpuid (((s.reg32 .rdi).setWidth 64).setWidth 32) (s.reg32 .rcx) =
      cpuidResult cpuid s := by rw [setWidth_setWidth_low, cpuidResult]
  refine ⟨rfl, rfl, rfl, rfl, ?_, ?_, ?_, ?_⟩ <;> rw [← hresult] <;> rfl

theorem outputsState_mem : (outputsState (execAll cpuid saveArguments s)).mem =
    storeOutputs s.mem (cpuidOutputs cpuid s) := by
  obtain ⟨hr10, hr11, hr12, hr13, hrax, hrbx, hrcx, hrdx⟩ := regs_saveArguments cpuid s
  simp only [outputsState, outputState, State.reg32, hr10, hr11, hr12, hr13, hrax, hrbx, hrcx, hrdx,
    setWidth_setWidth_low]
  rfl

/-- The outputs are stored apart from the return address, so it is only the registers that matter. -/
theorem getCpuid_convention_iff (hapart : OutputsApart cpuid s) :
    ReturnsToCaller s (outputsState (execAll cpuid saveArguments s)).ret ↔
      (cpuidResult cpuid s).ebx.setWidth 64 = s.regs .rbx ∧ s.regs .rcx = s.regs .r12 ∧
        s.regs .r8 = s.regs .r13 := by
  have hmem : Set.EqOn (outputsState (execAll cpuid saveArguments s)).mem.byte s.mem.byte
      (Set.Ico (s.regs .rsp).toNat ((s.regs .rsp).toNat + 8)) := by
    intro b hb
    rw [outputsState_mem]
    exact storeOutputs_byte fun o ho hc => hapart o ho b hc hb
  have hregs : (outputsState (execAll cpuid saveArguments s)).regs =
      (execAll cpuid saveArguments s).regs := rfl
  have hrsp : (outputsState (execAll cpuid saveArguments s)).regs .rsp = s.regs .rsp := rfl
  obtain ⟨-, -, hr12, hr13, -, hrbx, -, -⟩ := regs_saveArguments cpuid s
  rw [returnsToCaller_ret_iff hrsp hmem, hregs, ← hrbx, ← hr12, ← hr13]
  constructor
  · intro h
    exact ⟨h .rbx (by decide), h .r12 (by decide), h .r13 (by decide)⟩
  · intro h r hr
    obtain ⟨hsaved, hsaved', hsaved''⟩ := h
    by_cases hkept : ∀ o ∈ saveArguments, r ∉ o.writes
    · exact execAll_regs hkept
    · cases r <;> first | assumption | exact absurd hr (by decide) | exact absurd (by decide) hkept

end GetCpuid

section Convention
variable {cpuid : Cpuid} {s : State}

theorem enablePaging_rbx : (execAll cpuid enablePagingOps s).regs .rbx =
    (s.controls .cr4 ||| 1#64 <<< 31 ||| 1#64 <<< 5) &&& ~~~(1#64 <<< 57) := by
  show ~~~(~~~(s.controls .cr4 ||| 1#64 <<< 31 ||| 1#64 <<< 5) ||| 1#64 <<< 57) = _
  rw [BitVec.not_or, BitVec.not_not]

/-- The return address is back on the top of the stack, above the selector. -/
theorem farReturnOps_spec (cpuid : Cpuid) (s : State) :
    (execAll cpuid farReturnOps s).top = s.top ∧
    (execAll cpuid farReturnOps s).regs .rsp = s.regs .rsp + 8 - 8 - 8 := by
  simp only [farReturnOps, execAll, List.foldl_cons, List.foldl_nil, Op.exec]
  constructor
  · simp only [top_push, ne_eq, reduceCtorEq, not_false_eq_true, regs_push_of_ne, regs_setReg_of_ne,
      regs_setReg_self]
  · rfl

theorem loadSegmentsOps_spec (cpuid : Cpuid) (s : State) :
    (execAll cpuid loadSegmentsOps s).top = s.top ∧
    (execAll cpuid loadSegmentsOps s).regs .rsp = s.regs .rsp := by
  have hmem : (execAll cpuid loadSegmentsOps s).mem = s.mem := execAll_mem (by decide)
  have hrsp : (execAll cpuid loadSegmentsOps s).regs .rsp = s.regs .rsp := execAll_regs (by decide)
  refine ⟨top_congr hrsp ?_, hrsp⟩
  rw [hmem]
  exact Set.eqOn_refl _ _

theorem returns_loadGdt {s' : State} : Returns cpuid loadGdt loadGdt s s' ↔
    s' = (execAll cpuid farReturnOps (execAll cpuid loadSegmentsOps s)).retfq :=
  returns_block.trans (returns_block.trans returns_retfq)

/-- The far return of `load_gdt` takes the return address off the stack. -/
theorem loadGdt_convention {s' : State} (h : Returns cpuid loadGdt loadGdt s s') :
    ReturnsToCaller s s' := by
  have hregs : ∀ r ∈ calleeSaved, ∀ line ∈ loadGdt, r ∉ line.writes := by decide
  obtain ⟨htop, hrsp⟩ := loadSegmentsOps_spec cpuid s
  obtain ⟨htop', hrsp'⟩ := farReturnOps_spec cpuid (execAll cpuid loadSegmentsOps s)
  have hstate := returns_loadGdt.mp h
  refine ⟨?_, ?_, fun r hr => h.regs (hregs r hr)⟩
  · rw [hstate, retfq_rip, htop', htop]
  · rw [hstate, retfq_regs, State.drop, regs_setReg_self, State.drop, regs_setReg_self, hrsp', hrsp,
      BitVec.sub_add_cancel, BitVec.sub_add_cancel]

/-- When the registers the routine uses happen to hold the values it leaves there. -/
def AsmRoutine.KeepsRegisters (cpuid : Cpuid) (s : State) : AsmRoutine → Prop
  | getCpuid => (cpuidResult cpuid s).ebx.setWidth 64 = s.regs .rbx ∧ s.regs .rcx = s.regs .r12 ∧
      s.regs .r8 = s.regs .r13
  | enableCpu4LevelPaging =>
      (s.controls .cr4 ||| 1#64 <<< 31 ||| 1#64 <<< 5) &&& ~~~(1#64 <<< 57) = s.regs .rbx
  | writeMsr | readMsr | loadGdt => True

/-- The routine returns to its caller as the convention has it, `get_cpuid` with its outputs written and
nothing else. -/
def AsmRoutine.Conforms (cpuid : Cpuid) (s : State) (routine : AsmRoutine) : Prop :=
  ∃ s', routine.Call cpuid s s' ∧ ReturnsToCaller s s' ∧
    (routine = getCpuid → WritesOutputs (cpuidOutputs cpuid s) s.mem s'.mem)

/-- A block conforms when it leaves the saved registers as they are. -/
theorem AsmRoutine.conforms_block_iff {routine : AsmRoutine} {ops : List Op}
    (hlines : routine.lines = block ops ++ [.ret]) (hne : routine ≠ getCpuid)
    (hrsp : ∀ o ∈ ops, .rsp ∉ o.writes) (hmem : ∀ o ∈ ops, o.stores = false) :
    routine.Conforms cpuid s ↔ ∀ r ∈ calleeSaved, (execAll cpuid ops s).regs r = s.regs r := by
  have hiff : (∃ s', Returns cpuid routine.lines (block ops ++ [.ret]) s s' ∧ ReturnsToCaller s s') ↔
      ∀ r ∈ calleeSaved, (execAll cpuid ops s).regs r = s.regs r := block_convention_iff hrsp hmem
  rw [← hiff, ← hlines]
  simp only [Conforms, Call, hne, false_implies, and_true]

theorem enablePaging_conforms_iff : AsmRoutine.enableCpu4LevelPaging.Conforms cpuid s ↔
    ∀ r ∈ calleeSaved, (execAll cpuid enablePagingOps s).regs r = s.regs r :=
  AsmRoutine.conforms_block_iff rfl (by simp) (by decide) (by decide)

/-- Exactly `get_cpuid` and `_enable_cpu_4_level_paging` may fail to conform. -/
theorem asm_conforms_iff (cpuid : Cpuid) (s : State) (routine : AsmRoutine)
    (hapart : routine = .getCpuid → OutputsApart cpuid s) :
    routine.Conforms cpuid s ↔ routine.KeepsRegisters cpuid s := by
  cases routine with
  | getCpuid =>
      have hcall (s' : State) : AsmRoutine.getCpuid.Call cpuid s s' ↔
          s' = (outputsState (execAll cpuid saveArguments s)).ret := returns_getCpuid
      have houtputs : WritesOutputs (cpuidOutputs cpuid s) s.mem
          (outputsState (execAll cpuid saveArguments s)).ret.mem := by
        have hmem : (outputsState (execAll cpuid saveArguments s)).ret.mem =
            storeOutputs s.mem (cpuidOutputs cpuid s) := outputsState_mem
        rw [hmem]
        exact writesOutputs_storeOutputs _ _
      simp only [AsmRoutine.Conforms, hcall, exists_eq_left, forall_const]
      rw [and_iff_left houtputs]
      exact getCpuid_convention_iff (hapart rfl)
  | writeMsr =>
      refine iff_of_true ?_ trivial
      have hregs : ∀ r ∈ calleeSaved, ∀ o ∈ writeMsrOps, r ∉ o.writes := by decide
      exact (AsmRoutine.conforms_block_iff rfl (by simp) (by decide) (by decide)).mpr
        fun r hr => execAll_regs (hregs r hr)
  | readMsr =>
      refine iff_of_true ?_ trivial
      have hregs : ∀ r ∈ calleeSaved, ∀ o ∈ readMsrOps, r ∉ o.writes := by decide
      exact (AsmRoutine.conforms_block_iff rfl (by simp) (by decide) (by decide)).mpr
        fun r hr => execAll_regs (hregs r hr)
  | enableCpu4LevelPaging =>
      rw [enablePaging_conforms_iff]
      show _ ↔ _ = s.regs .rbx
      rw [← enablePaging_rbx]
      have hregs : ∀ r ∈ calleeSaved, r ≠ .rbx → ∀ o ∈ enablePagingOps, r ∉ o.writes := by decide
      constructor
      · exact fun h => h .rbx (by decide)
      · intro h r hr
        by_cases hrbx : r = .rbx
        · exact hrbx ▸ h
        · exact execAll_regs (hregs r hr hrbx)
  | loadGdt =>
      refine iff_of_true ?_ trivial
      have hcall : AsmRoutine.loadGdt.Call cpuid s _ := returns_loadGdt.mpr rfl
      exact ⟨_, hcall, loadGdt_convention hcall, fun h => by cases h⟩

end Convention

/-- A call of `get_cpuid` for leaf 1 that asks for `ebx`, with 5 in the caller's `rbx`. -/
def callState : State where
  regs := fun
    | .rdi => 1
    | .rdx => 0x9000
    | .rsp => 0x8000
    | .rbx => 5
    | _ => 0
  zf := false
  segs := fun _ => 0
  controls := fun _ => 0
  gdtr := 0
  msrs := fun _ => 0
  mem := ⟨fun _ => 0, []⟩
  rip := 0

def smallCpuid : Cpuid := fun _ _ => ⟨0x306a9, 0x100800, 0, 0⟩

theorem outputsApart_callState : OutputsApart smallCpuid callState := by
  intro o ho b hb hslot
  have hslot' : 0x8000 ≤ b ∧ b < 0x8000 + 8 := hslot
  obtain rfl | rfl | rfl | rfl : o = (0, 0x306a9) ∨ o = (0x9000, 0x100800) ∨ o = (0, 0) ∨ o = (0, 0) := by
    simpa [cpuidOutputs, cpuidResult, callState, smallCpuid] using ho
  · exact hb.1 rfl
  · have hlow : 0x9000 ≤ b := hb.2.1
    omega
  · exact hb.1 rfl
  · exact hb.1 rfl

theorem asm_conforms_iff_callState : AsmRoutine.getCpuid.Conforms smallCpuid callState ↔
    AsmRoutine.getCpuid.KeepsRegisters smallCpuid callState :=
  asm_conforms_iff smallCpuid callState .getCpuid fun _ => outputsApart_callState

/-- `rbx` is lost in both. -/
theorem asm_clobbers_rbx : ¬AsmRoutine.getCpuid.Conforms smallCpuid callState ∧
    ¬AsmRoutine.enableCpu4LevelPaging.Conforms smallCpuid callState := by
  constructor
  · intro h
    obtain ⟨s', hcall, hreturns, -⟩ := h
    rw [returns_getCpuid.mp hcall] at hreturns
    exact absurd ((getCpuid_convention_iff outputsApart_callState).mp hreturns).1 (by decide)
  · intro h
    have hrbx := enablePaging_conforms_iff.mp h .rbx (by decide)
    rw [enablePaging_rbx] at hrbx
    exact absurd hrbx (by decide)

end MyOSKernel
