import MyOSKernel.Bytes

/-! A part of the x86-64 in 64-bit mode: registers, the zero flag, the stack, control and segment
registers, and machine-specific registers. A routine is a list of lines; it is run until it returns.
No instruction faults: what the control, segment and machine-specific registers accept is not
checked, and no access wraps around the end of memory. -/

namespace X86

open MyOSKernel (Memory)

inductive Reg where
  | rax | rbx | rcx | rdx | rsi | rdi | rbp | rsp
  | r8 | r9 | r10 | r11 | r12 | r13 | r14 | r15
  deriving DecidableEq

inductive SegReg where
  | cs | ds | es | fs | gs | ss
  deriving DecidableEq

inductive ControlReg where
  | cr0 | cr2 | cr3 | cr4
  deriving DecidableEq

structure CpuidResult where
  eax : BitVec 32
  ebx : BitVec 32
  ecx : BitVec 32
  edx : BitVec 32

/-- The answers of `cpuid`, by the leaf in `eax` and the subleaf in `ecx`. -/
abbrev Cpuid := BitVec 32 → BitVec 32 → CpuidResult

/-- The state; `rip` is where the last return has gone to. -/
structure State where
  regs : Reg → BitVec 64
  zf : Bool
  segs : SegReg → BitVec 16
  controls : ControlReg → BitVec 64
  gdtr : BitVec 80
  msrs : BitVec 32 → BitVec 64
  mem : Memory
  rip : BitVec 64

/-- The low half of a number that has only that. -/
theorem setWidth_setWidth_low (w : BitVec 32) : (w.setWidth 64).setWidth 32 = w := by
  rw [BitVec.setWidth_setWidth_of_le _ (by decide), BitVec.setWidth_eq]

namespace State

def setReg (s : State) (r : Reg) (v : BitVec 64) : State :=
  { s with regs := Function.update s.regs r v }

/-- The low half of a register. -/
def reg32 (s : State) (r : Reg) : BitVec 32 := (s.regs r).setWidth 32

/-- Writing the low half clears the high one. -/
def setReg32 (s : State) (r : Reg) (v : BitVec 32) : State := s.setReg r (v.setWidth 64)

/-- Writing the low sixteen bits leaves the others. -/
def setReg16 (s : State) (r : Reg) (v : BitVec 16) : State :=
  s.setReg r ((s.regs r).extractLsb' 16 48 ++ v)

/-- The result of an arithmetic instruction, with the zero flag. -/
def setResult (s : State) (r : Reg) (v : BitVec 64) : State := { s.setReg r v with zf := v == 0 }

def load64 (s : State) (a : BitVec 64) : BitVec 64 := BitVec.ofNat 64 (s.mem.loadLE a.toNat 8)

def store64 (s : State) (a v : BitVec 64) : State :=
  { s with mem := s.mem.storeLE a.toNat v.toNat 8 }

def store32 (s : State) (a : BitVec 64) (v : BitVec 32) : State :=
  { s with mem := s.mem.storeLE a.toNat v.toNat 4 }

def push (s : State) (v : BitVec 64) : State :=
  (s.setReg .rsp (s.regs .rsp - 8)).store64 (s.regs .rsp - 8) v

/-- The top of the stack. -/
def top (s : State) : BitVec 64 := s.load64 (s.regs .rsp)

/-- Takes the top off the stack. -/
def drop (s : State) : State := s.setReg .rsp (s.regs .rsp + 8)

end State

/-- The instructions other than jumps and returns. -/
inductive Op where
  | mov (dst src : Reg)
  | mov32 (dst src : Reg)
  | movImm (dst : Reg) (imm : BitVec 64)
  | movImm16 (dst : Reg) (imm : BitVec 16)
  | movToMem32 (base src : Reg)
  | movFromControl (dst : Reg) (src : ControlReg)
  | movToControl (dst : ControlReg) (src : Reg)
  | movToSeg (dst : SegReg) (src : Reg)
  | or (dst src : Reg)
  | xor (dst src : Reg)
  | not (dst : Reg)
  | shl (dst : Reg) (count : Nat)
  | shr (dst : Reg) (count : Nat)
  | cmp (r : Reg) (imm : BitVec 64)
  | push (src : Reg)
  | pop (dst : Reg)
  | lgdt (base : Reg)
  | cpuid
  | rdmsr
  | wrmsr

def Op.exec (cpuid : Cpuid) : Op → State → State
  | .mov dst src, s => s.setReg dst (s.regs src)
  | .mov32 dst src, s => s.setReg32 dst (s.reg32 src)
  | .movImm dst imm, s => s.setReg dst imm
  | .movImm16 dst imm, s => s.setReg16 dst imm
  | .movToMem32 base src, s => s.store32 (s.regs base) (s.reg32 src)
  | .movFromControl dst src, s => s.setReg dst (s.controls src)
  | .movToControl dst src, s => { s with controls := Function.update s.controls dst (s.regs src) }
  | .movToSeg dst src, s =>
    { s with segs := Function.update s.segs dst ((s.regs src).setWidth 16) }
  | .or dst src, s => s.setResult dst (s.regs dst ||| s.regs src)
  | .xor dst src, s => s.setResult dst (s.regs dst ^^^ s.regs src)
  | .not dst, s => s.setReg dst (~~~(s.regs dst))
  | .shl dst count, s =>
    if count % 64 = 0 then s else s.setResult dst (s.regs dst <<< (count % 64))
  | .shr dst count, s =>
    if count % 64 = 0 then s else s.setResult dst (s.regs dst >>> (count % 64))
  | .cmp r imm, s => { s with zf := s.regs r == imm }
  | .push src, s => s.push (s.regs src)
  | .pop dst, s => s.drop.setReg dst s.top
  | .lgdt base, s => { s with gdtr := BitVec.ofNat 80 (s.mem.loadLE (s.regs base).toNat 10) }
  | .cpuid, s =>
    let result := cpuid (s.reg32 .rax) (s.reg32 .rcx)
    (((s.setReg32 .rax result.eax).setReg32 .rbx result.ebx).setReg32 .rcx result.ecx).setReg32 .rdx
      result.edx
  | .rdmsr, s =>
    let value := s.msrs (s.reg32 .rcx)
    (s.setReg32 .rax (value.setWidth 32)).setReg32 .rdx ((value >>> 32).setWidth 32)
  | .wrmsr, s =>
    { s with msrs := Function.update s.msrs (s.reg32 .rcx) (s.reg32 .rdx ++ s.reg32 .rax) }

/-- A near return. -/
def State.ret (s : State) : State := { s.drop with rip := s.top }

/-- A far return: the instruction pointer, then the code segment. -/
def State.retfq (s : State) : State :=
  { s.drop.drop with
    rip := s.top
    segs := Function.update s.segs .cs (s.drop.top.setWidth 16) }

/-- A line of a routine with labels `L`. -/
inductive Line (L : Type) where
  | op (o : Op)
  | label (l : L)
  | jmp (l : L)
  | jne (l : L)
  | ret
  | retfq

section Run
variable {L : Type} [DecidableEq L]

def Line.isLabel (l : L) : Line L → Bool
  | .label l' => l' = l
  | _ => false

/-- The lines from a label on. -/
def linesFrom (code : List (Line L)) (l : L) : List (Line L) :=
  code.dropWhile fun line => !line.isLabel l

/-- Runs the lines until the routine returns. -/
def run (cpuid : Cpuid) (code : List (Line L)) : Nat → List (Line L) → State → Option State
  | 0, _, _ => none
  | _ + 1, [], _ => none
  | fuel + 1, .op o :: lines, s => run cpuid code fuel lines (o.exec cpuid s)
  | fuel + 1, .label _ :: lines, s => run cpuid code fuel lines s
  | fuel + 1, .jmp l :: _, s => run cpuid code fuel (linesFrom code l) s
  | fuel + 1, .jne l :: lines, s =>
    if s.zf then run cpuid code fuel lines s else run cpuid code fuel (linesFrom code l) s
  | _ + 1, .ret :: _, s => some s.ret
  | _ + 1, .retfq :: _, s => some s.retfq

/-- The routine `code` returns in `s'` when its lines are run from `s` on. -/
def Returns (cpuid : Cpuid) (code lines : List (Line L)) (s s' : State) : Prop :=
  ∃ fuel, run cpuid code fuel lines s = some s'

variable {cpuid : Cpuid} {code lines : List (Line L)} {s s' : State} {o : Op} {l : L}

theorem returns_succ : Returns cpuid code lines s s' ↔
    ∃ fuel, run cpuid code (fuel + 1) lines s = some s' := by
  constructor
  · intro h
    obtain ⟨fuel, hrun⟩ := h
    cases fuel with
    | zero => exact absurd hrun (by simp [run])
    | succ fuel => exact ⟨fuel, hrun⟩
  · intro h
    obtain ⟨fuel, hrun⟩ := h
    exact ⟨fuel + 1, hrun⟩

theorem returns_op : Returns cpuid code (.op o :: lines) s s' ↔
    Returns cpuid code lines (o.exec cpuid s) s' := returns_succ

theorem returns_label : Returns cpuid code (.label l :: lines) s s' ↔
    Returns cpuid code lines s s' := returns_succ

theorem returns_jmp : Returns cpuid code (.jmp l :: lines) s s' ↔
    Returns cpuid code (linesFrom code l) s s' := returns_succ

theorem returns_jne_of_equal (hzf : s.zf = true) : Returns cpuid code (.jne l :: lines) s s' ↔
    Returns cpuid code lines s s' := by
  rw [returns_succ]
  simp only [run, if_pos hzf]
  rfl

theorem returns_jne_of_not_equal (hzf : s.zf = false) :
    Returns cpuid code (.jne l :: lines) s s' ↔ Returns cpuid code (linesFrom code l) s s' := by
  rw [returns_succ]
  simp only [run, hzf, Bool.false_eq_true, if_false]
  rfl

theorem returns_ret : Returns cpuid code (.ret :: lines) s s' ↔ s' = s.ret := by
  rw [returns_succ]
  simp only [run, Option.some.injEq, exists_const]
  exact eq_comm

theorem returns_retfq : Returns cpuid code (.retfq :: lines) s s' ↔ s' = s.retfq := by
  rw [returns_succ]
  simp only [run, Option.some.injEq, exists_const]
  exact eq_comm

end Run

/-- Instructions one after the other. -/
def block {L : Type} (ops : List Op) : List (Line L) := ops.map .op

def execAll (cpuid : Cpuid) (ops : List Op) (s : State) : State :=
  ops.foldl (fun s o => o.exec cpuid s) s

theorem returns_block {L : Type} [DecidableEq L] {cpuid : Cpuid} {code lines : List (Line L)}
    {ops : List Op} {s s' : State} : Returns cpuid code (block ops ++ lines) s s' ↔
      Returns cpuid code lines (execAll cpuid ops s) s' := by
  induction ops generalizing s with
  | nil => exact Iff.rfl
  | cons o ops ih => exact returns_op.trans ih

/-- A routine that is a block returns after its last instruction. -/
theorem returns_block_ret {L : Type} [DecidableEq L] {cpuid : Cpuid} {code : List (Line L)}
    {ops : List Op} {s s' : State} : Returns cpuid code (block ops ++ [.ret]) s s' ↔
      s' = (execAll cpuid ops s).ret :=
  returns_block.trans returns_ret

/-- The instruction stores to memory. -/
def Op.stores : Op → Bool
  | .movToMem32 _ _ | .push _ => true
  | _ => false

/-- The registers the instruction writes. -/
def Op.writes : Op → List Reg
  | .mov dst _ | .mov32 dst _ | .movImm dst _ | .movImm16 dst _ | .movFromControl dst _ => [dst]
  | .or dst _ | .xor dst _ | .not dst | .shl dst _ | .shr dst _ => [dst]
  | .pop dst => [dst, .rsp]
  | .push _ => [.rsp]
  | .cpuid => [.rax, .rbx, .rcx, .rdx]
  | .rdmsr => [.rax, .rdx]
  | .movToMem32 _ _ | .movToControl _ _ | .movToSeg _ _ | .cmp _ _ | .lgdt _ | .wrmsr => []

def Line.writes {L : Type} : Line L → List Reg
  | .op o => o.writes
  | .ret | .retfq => [.rsp]
  | .label _ | .jmp _ | .jne _ => []

section Frame
variable {L : Type} {cpuid : Cpuid} {code lines : List (Line L)} {s s' : State} {r : Reg}

@[simp] theorem setReg_mem (r : Reg) (v : BitVec 64) : (s.setReg r v).mem = s.mem := rfl
@[simp] theorem setReg32_mem (r : Reg) (v : BitVec 32) : (s.setReg32 r v).mem = s.mem := rfl
@[simp] theorem setReg16_mem (r : Reg) (v : BitVec 16) : (s.setReg16 r v).mem = s.mem := rfl
@[simp] theorem setResult_mem (r : Reg) (v : BitVec 64) : (s.setResult r v).mem = s.mem := rfl
@[simp] theorem drop_mem : s.drop.mem = s.mem := rfl

@[simp] theorem regs_setReg_self {dst : Reg} (v : BitVec 64) : (s.setReg dst v).regs dst = v :=
  Function.update_self _ _ _

theorem regs_setReg_of_ne {dst : Reg} (v : BitVec 64) (h : r ≠ dst) :
    (s.setReg dst v).regs r = s.regs r := Function.update_of_ne h _ _

theorem regs_drop_of_ne (h : r ≠ .rsp) : s.drop.regs r = s.regs r := regs_setReg_of_ne _ h

theorem regs_push_of_ne {v : BitVec 64} (h : r ≠ .rsp) : (s.push v).regs r = s.regs r :=
  regs_setReg_of_ne _ h

@[simp] theorem ret_regs : s.ret.regs = s.drop.regs := by
  unfold State.ret
  rfl

theorem ret_rip : s.ret.rip = s.top := by
  unfold State.ret
  rfl

theorem ret_controls : s.ret.controls = s.controls := by
  unfold State.ret
  rfl

theorem ret_msrs : s.ret.msrs = s.msrs := by
  unfold State.ret
  rfl

theorem retfq_rip : s.retfq.rip = s.top := by
  unfold State.retfq
  rfl

@[simp] theorem retfq_regs : s.retfq.regs = s.drop.drop.regs := by
  unfold State.retfq
  rfl

theorem Op.exec_regs {o : Op} (h : r ∉ o.writes) : (o.exec cpuid s).regs r = s.regs r := by
  cases o with
  | movToMem32 base src => rfl
  | movToControl dst src => rfl
  | movToSeg dst src => rfl
  | cmp r' imm => rfl
  | lgdt base => rfl
  | wrmsr => rfl
  | mov dst src => exact regs_setReg_of_ne _ (List.ne_of_not_mem_cons h)
  | mov32 dst src => exact regs_setReg_of_ne _ (List.ne_of_not_mem_cons h)
  | movImm dst imm => exact regs_setReg_of_ne _ (List.ne_of_not_mem_cons h)
  | movImm16 dst imm => exact regs_setReg_of_ne _ (List.ne_of_not_mem_cons h)
  | movFromControl dst src => exact regs_setReg_of_ne _ (List.ne_of_not_mem_cons h)
  | or dst src => exact regs_setReg_of_ne _ (List.ne_of_not_mem_cons h)
  | xor dst src => exact regs_setReg_of_ne _ (List.ne_of_not_mem_cons h)
  | not dst => exact regs_setReg_of_ne _ (List.ne_of_not_mem_cons h)
  | shl dst count =>
      simp only [Op.exec]
      split_ifs
      · rfl
      · exact regs_setReg_of_ne _ (List.ne_of_not_mem_cons h)
  | shr dst count =>
      simp only [Op.exec]
      split_ifs
      · rfl
      · exact regs_setReg_of_ne _ (List.ne_of_not_mem_cons h)
  | push src => exact regs_setReg_of_ne _ (List.ne_of_not_mem_cons h)
  | pop dst =>
      obtain ⟨hdst, hrsp⟩ := List.ne_and_not_mem_of_not_mem_cons h
      exact (regs_setReg_of_ne _ hdst).trans (regs_setReg_of_ne _ (List.ne_of_not_mem_cons hrsp))
  | cpuid =>
      simp only [Op.writes, List.mem_cons, List.not_mem_nil, or_false, not_or] at h
      obtain ⟨hrax, hrbx, hrcx, hrdx⟩ := h
      exact (regs_setReg_of_ne _ hrdx).trans ((regs_setReg_of_ne _ hrcx).trans
        ((regs_setReg_of_ne _ hrbx).trans (regs_setReg_of_ne _ hrax)))
  | rdmsr =>
      simp only [Op.writes, List.mem_cons, List.not_mem_nil, or_false, not_or] at h
      obtain ⟨hrax, hrdx⟩ := h
      exact (regs_setReg_of_ne _ hrdx).trans (regs_setReg_of_ne _ hrax)

theorem Op.exec_mem {o : Op} (h : o.stores = false) : (o.exec cpuid s).mem = s.mem := by
  cases o with
  | movToMem32 base src => cases h
  | push src => cases h
  | shl dst count =>
      simp only [Op.exec]
      split_ifs
      · rfl
      · exact setResult_mem _ _
  | shr dst count =>
      simp only [Op.exec]
      split_ifs
      · rfl
      · exact setResult_mem _ _
  | _ => simp only [Op.exec, setReg_mem, setReg32_mem, setReg16_mem, setResult_mem, drop_mem]

theorem execAll_mem {ops : List Op} (h : ∀ o ∈ ops, o.stores = false) :
    (execAll cpuid ops s).mem = s.mem := by
  induction ops generalizing s with
  | nil => rfl
  | cons o ops ih =>
      have hrest : (execAll cpuid ops (o.exec cpuid s)).mem = (o.exec cpuid s).mem :=
        ih fun o' ho' => h o' (List.mem_cons_of_mem o ho')
      exact hrest.trans (Op.exec_mem (h o List.mem_cons_self))

theorem execAll_regs {ops : List Op} (h : ∀ o ∈ ops, r ∉ o.writes) :
    (execAll cpuid ops s).regs r = s.regs r := by
  induction ops generalizing s with
  | nil => rfl
  | cons o ops ih =>
      have hrest : (execAll cpuid ops (o.exec cpuid s)).regs r = (o.exec cpuid s).regs r :=
        ih fun o' ho' => h o' (List.mem_cons_of_mem o ho')
      exact hrest.trans (Op.exec_regs (h o List.mem_cons_self))

variable [DecidableEq L]

theorem run_regs (hcode : ∀ line ∈ code, r ∉ line.writes) {fuel : Nat}
    (hlines : ∀ line ∈ lines, r ∉ line.writes) (hrun : run cpuid code fuel lines s = some s') :
    s'.regs r = s.regs r := by
  induction fuel generalizing lines s with
  | zero => cases hrun
  | succ fuel ih =>
      cases lines with
      | nil => cases hrun
      | cons line lines =>
          have hfirst := hlines line List.mem_cons_self
          have hrest : ∀ line ∈ lines, r ∉ line.writes :=
            fun line' hline => hlines line' (List.mem_cons_of_mem line hline)
          have hjump (l : L) : ∀ line ∈ linesFrom code l, r ∉ line.writes :=
            fun line' hline => hcode line' (List.dropWhile_sublist _ |>.subset hline)
          cases line with
          | op o => exact (ih hrest hrun).trans (Op.exec_regs hfirst)
          | label l => exact ih hrest hrun
          | jmp l => exact ih (hjump l) hrun
          | jne l =>
              simp only [run] at hrun
              split_ifs at hrun
              · exact ih hrest hrun
              · exact ih (hjump l) hrun
          | ret =>
              cases hrun
              rw [ret_regs]
              exact regs_drop_of_ne (List.ne_of_not_mem_cons hfirst)
          | retfq =>
              cases hrun
              have hrsp : r ≠ .rsp := List.ne_of_not_mem_cons hfirst
              rw [retfq_regs]
              exact (regs_drop_of_ne hrsp).trans (regs_drop_of_ne hrsp)

/-- A routine keeps the registers that no line of it writes. -/
theorem Returns.regs (h : Returns cpuid code code s s') (hcode : ∀ line ∈ code, r ∉ line.writes) :
    s'.regs r = s.regs r := by
  obtain ⟨fuel, hrun⟩ := h
  exact run_regs hcode hcode hrun

end Frame

section Stack
variable {s : State} {a v : BitVec 64}

@[simp] theorem load64_store64 : (s.store64 a v).load64 a = v := by
  have hlt : v.toNat < 256 ^ 8 := v.isLt
  unfold State.load64 State.store64
  rw [Memory.loadLE_storeLE, Nat.mod_eq_of_lt hlt, BitVec.ofNat_toNat, BitVec.setWidth_eq]

@[simp] theorem top_push : (s.push v).top = v := by
  have hrsp : (s.push v).regs .rsp = s.regs .rsp - 8 := rfl
  rw [State.top, hrsp]
  exact load64_store64

/-- A store elsewhere leaves the top of the stack. -/
theorem top_congr {s' : State} (hrsp : s'.regs .rsp = s.regs .rsp)
    (hmem : Set.EqOn s'.mem.byte s.mem.byte
      (Set.Ico (s.regs .rsp).toNat ((s.regs .rsp).toNat + 8))) : s'.top = s.top := by
  unfold State.top State.load64
  rw [hrsp, Memory.loadLE_congr hmem]

theorem push_byte {b : Nat}
    (hb : b ∉ Set.Ico (s.regs .rsp - 8).toNat ((s.regs .rsp - 8).toNat + 8)) :
    (s.push v).mem.byte b = s.mem.byte b := Memory.storeLE_byte_of_notMem _ hb

/-- Under what has been pushed is the old top. -/
theorem top_drop_push : (s.push v).drop.top = s.top := by
  have hrsp : (s.push v).drop.regs .rsp = s.regs .rsp := BitVec.sub_add_cancel _ _
  refine top_congr hrsp fun b hb => push_byte fun hb' => ?_
  have hlt := (s.regs .rsp).isLt
  have hsub : (s.regs .rsp - 8).toNat = (2 ^ 64 - 8 + (s.regs .rsp).toNat) % 2 ^ 64 := BitVec.toNat_sub _ _
  obtain ⟨hlow, hhigh⟩ := hb
  obtain ⟨hlow', hhigh'⟩ := hb'
  omega

end Stack

/-! ### The calling convention -/

/-- The registers a routine has to leave as they are. -/
def calleeSaved : List Reg := [.rbx, .rbp, .r12, .r13, .r14, .r15]

/-- A call that started in `s` has returned to its caller in `s'`. -/
structure ReturnsToCaller (s s' : State) : Prop where
  rip : s'.rip = s.top
  rsp : s'.regs .rsp = s.regs .rsp + 8
  saved : ∀ r ∈ calleeSaved, s'.regs r = s.regs r

section Convention
variable {cpuid : Cpuid} {s t : State}

/-- A routine that leaves the stack as it is only has to keep the registers. -/
theorem returnsToCaller_ret_iff (hrsp : t.regs .rsp = s.regs .rsp)
    (hmem : Set.EqOn t.mem.byte s.mem.byte
      (Set.Ico (s.regs .rsp).toNat ((s.regs .rsp).toNat + 8))) :
    ReturnsToCaller s t.ret ↔ ∀ r ∈ calleeSaved, t.regs r = s.regs r := by
  have hregs {r : Reg} (hr : r ∈ calleeSaved) : t.ret.regs r = t.regs r := by
    rw [ret_regs]
    exact regs_drop_of_ne fun h => absurd (h ▸ hr) (by decide)
  constructor
  · intro h r hr
    rw [← hregs hr, h.saved r hr]
  · intro h
    refine ⟨?_, ?_, ?_⟩
    · rw [ret_rip, top_congr hrsp hmem]
    · rw [ret_regs, State.drop, regs_setReg_self, hrsp]
    · intro r hr
      rw [hregs hr, h r hr]

/-- So a block that does not use the stack keeps the convention when it keeps the registers. -/
theorem block_convention_iff {L : Type} [DecidableEq L] {code : List (Line L)} {ops : List Op}
    (hrsp : ∀ o ∈ ops, .rsp ∉ o.writes) (hmem : ∀ o ∈ ops, o.stores = false) :
    (∃ s', Returns cpuid code (block ops ++ [.ret]) s s' ∧ ReturnsToCaller s s') ↔
      ∀ r ∈ calleeSaved, (execAll cpuid ops s).regs r = s.regs r := by
  have hbytes : Set.EqOn (execAll cpuid ops s).mem.byte s.mem.byte
      (Set.Ico (s.regs .rsp).toNat ((s.regs .rsp).toNat + 8)) := by
    rw [execAll_mem hmem]
    exact Set.eqOn_refl _ _
  rw [← returnsToCaller_ret_iff (execAll_regs hrsp) hbytes]
  simp only [returns_block_ret, exists_eq_left]

end Convention

end X86
