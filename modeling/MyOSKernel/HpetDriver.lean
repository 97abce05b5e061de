import MyOSKernel.Acpi
import MyOSKernel.Hpet
import MyOSKernel.Mmio

/-! The driver of the HPET: `hpet.c` and `timer.c`. It shares the registers with the hardware, which
counts between any two accesses. The configuration and the registers of the timers belong to the
driver: seen from it they are variables of their own, and each call updates the ones it is about. -/

namespace MyOSKernel

/-- `HTimerConfigReg`, the lowest field first. -/
structure HTimerConfigReg where
  reserved1 : BitVec 1 := 0
  tnIntTypeCnf : BitVec 1 := 0
  tnIntEnbCnf : BitVec 1 := 0
  tnTypeCnf : BitVec 1 := 0
  tnPerIntCap : BitVec 1 := 0
  tnSizeCap : BitVec 1 := 0
  tnValSetCnf : BitVec 1 := 0
  reserved2 : BitVec 1 := 0
  tn32modeCnf : BitVec 1 := 0
  tnIntRouteCnf : BitVec 5 := 0
  tnFsbEnCnf : BitVec 1 := 0
  tnFsbIntDelCap : BitVec 1 := 0
  reserved3 : BitVec 16 := 0
  tnIntRouteCap : BitVec 32 := 0

/-- `*(uint64_t *) reg`. -/
def HTimerConfigReg.word (reg : HTimerConfigReg) : UInt64 :=
  ⟨reg.tnIntRouteCap ++ (reg.reserved3 ++ (reg.tnFsbIntDelCap ++ (reg.tnFsbEnCnf ++
    (reg.tnIntRouteCnf ++ (reg.tn32modeCnf ++ (reg.reserved2 ++ (reg.tnValSetCnf ++ (reg.tnSizeCap ++
      (reg.tnPerIntCap ++ (reg.tnTypeCnf ++ (reg.tnIntEnbCnf ++
        (reg.tnIntTypeCnf ++ reg.reserved1))))))))))))⟩

def nanosecondsPerTick : UInt64 := 100

def timerOneShotType : BitVec 1 := 1

section Code
variable (kernel : KernelData) (hw : Hardware) (bus : Bus)

def hpetWriteReg (reg : Nat) (val : UInt64) : Bus := bus.write64 hw (hpetGetRegPtr kernel reg) val

def hpetReadReg (reg : Nat) : UInt64 × Bus := bus.read64 hw (hpetGetRegPtr kernel reg)

/-- `HPET_is_counter_enabled`. -/
def hpetIsCounterEnabled : UInt64 × Bus :=
  let (reg, bus) := hpetReadReg kernel hw bus hpetConfigRegOffset
  (reg &&& 1, bus)

/-- `HPET_enable_counter`. -/
def hpetEnableCounter : Bus :=
  let (reg, bus) := hpetReadReg kernel hw bus hpetConfigRegOffset
  hpetWriteReg kernel hw bus hpetConfigRegOffset (reg ||| 1)

/-- `HPET_disable_counter`. -/
def hpetDisableCounter : Bus :=
  let (reg, bus) := hpetReadReg kernel hw bus hpetConfigRegOffset
  hpetWriteReg kernel hw bus hpetConfigRegOffset (reg &&& ~~~1)

/-- `HPET_get_main_counter`. -/
def hpetGetMainCounter : UInt64 × Bus := hpetReadReg kernel hw bus hpetCounterRegOffset

def hTimerWriteReg (timerN : UInt8) (reg : Nat) (val : UInt64) : Bus :=
  bus.write64 hw (hTimerGetTimerRegPtr kernel timerN.toNat reg) val

def hTimerReadReg (timerN : UInt8) (reg : Nat) : UInt64 × Bus :=
  bus.read64 hw (hTimerGetTimerRegPtr kernel timerN.toNat reg)

def hTimerSetConfig (timerN : UInt8) (reg : HTimerConfigReg) : Bus :=
  hTimerWriteReg kernel hw bus timerN timerConfigReg reg.word

def hTimerSetCompar (timerN : UInt8) (val : UInt64) : Bus :=
  hTimerWriteReg kernel hw bus timerN timerComparReg val

def hTimerGetCompar (timerN : UInt8) : UInt64 × Bus :=
  hTimerReadReg kernel hw bus timerN timerComparReg

/-- The configuration `HTimer_set_one_shot` writes. -/
def oneShotConfig : HTimerConfigReg where
  tnIntEnbCnf := 1
  tnTypeCnf := timerOneShotType
  tnIntRouteCnf := 0

def oneShotTicks (msTime : UInt64) : UInt64 := msTime * 1000000 / nanosecondsPerTick

def hTimerSetOneShot (timerN : UInt8) (msTime : UInt64) : Bus :=
  let bus := hTimerSetConfig kernel hw bus timerN oneShotConfig
  let (counter, bus) := hpetGetMainCounter kernel hw bus
  hTimerSetCompar kernel hw bus timerN (counter + oneShotTicks msTime)

/-- `hpet_desc->base_address.address`. -/
def hpetBaseAddress (mem : Memory) (hpetDesc : Nat) : Nat := mem.loadLE (hpetDesc + 44) 8

/-- `HPET_get_desc_table`. -/
def hpetGetDescTable (mem : Memory) (rsdp : Nat) : SdtSearch :=
  getAcpiStdHeader mem rsdp hpetStdSignature

/-- `HPET_init`. Both files take the address of the registers from the table from then on. -/
def hpetInit (rsdp : Nat) : Nat × KernelData × Bus :=
  let hpetDesc := (hpetGetDescTable bus.mem rsdp).header
  let kernel := { kernel with hpetAddress := hpetBaseAddress bus.mem hpetDesc }
  (hpetDesc, kernel, hpetEnableCounter kernel hw bus)

end Code

/-- A call of the driver. -/
inductive HpetCall
  | isCounterEnabled
  | enableCounter
  | disableCounter
  | getMainCounter
  | setConfig (timerN : UInt8) (reg : HTimerConfigReg)
  | setCompar (timerN : UInt8) (val : UInt64)
  | getCompar (timerN : UInt8)
  | setOneShot (timerN : UInt8) (msTime : UInt64)

/-- What a call returns, if it returns a value, and the bus after it. -/
def HpetCall.run (kernel : KernelData) (hw : Hardware) (bus : Bus) : HpetCall → Option UInt64 × Bus
  | isCounterEnabled => (hpetIsCounterEnabled kernel hw bus).map some id
  | enableCounter => (none, hpetEnableCounter kernel hw bus)
  | disableCounter => (none, hpetDisableCounter kernel hw bus)
  | getMainCounter => (hpetGetMainCounter kernel hw bus).map some id
  | setConfig timerN reg => (none, hTimerSetConfig kernel hw bus timerN reg)
  | setCompar timerN val => (none, hTimerSetCompar kernel hw bus timerN val)
  | getCompar timerN => (hTimerGetCompar kernel hw bus timerN).map some id
  | setOneShot timerN msTime => (none, hTimerSetOneShot kernel hw bus timerN msTime)

/-- A sequence of calls, with what they return. -/
def runHpet (kernel : KernelData) (hw : Hardware) : Bus → List HpetCall → List (Option UInt64) × Bus
  | bus, [] => ([], bus)
  | bus, call :: calls =>
    let (output, bus) := call.run kernel hw bus
    let (outputs, bus) := runHpet kernel hw bus calls
    (output :: outputs, bus)

/-- The registers only the driver writes. -/
inductive HpetReg
  | config
  | timerConfig (timerN : UInt8)
  | timerCompar (timerN : UInt8)
  deriving DecidableEq

def HpetReg.addr (kernel : KernelData) : HpetReg → Nat
  | config => hpetGetRegPtr kernel hpetConfigRegOffset
  | timerConfig timerN => hTimerGetTimerRegPtr kernel timerN.toNat timerConfigReg
  | timerCompar timerN => hTimerGetTimerRegPtr kernel timerN.toNat timerComparReg

def HpetReg.offset : HpetReg → Nat
  | config => hpetConfigRegOffset
  | timerConfig timerN => timerFirstOff + hTimerSz * timerN.toNat + timerConfigReg
  | timerCompar timerN => timerFirstOff + hTimerSz * timerN.toNat + timerComparReg

theorem HpetReg.offset_le (r : HpetReg) : r.offset ≤ 0x20e8 := by
  cases r with
  | config => decide
  | timerConfig n =>
      have hn := n.toNat_lt
      simp only [offset, timerFirstOff, hTimerSz, timerConfigReg]
      omega
  | timerCompar n =>
      have hn := n.toNat_lt
      simp only [offset, timerFirstOff, hTimerSz, timerComparReg]
      omega

/-- The offset tells the registers apart, by its place in the block of a timer and the block. -/
theorem HpetReg.offset_apart {r r' : HpetReg} (hne : r ≠ r') :
    r.offset + 8 ≤ r'.offset ∨ r'.offset + 8 ≤ r.offset := by
  have htimer {n m : UInt8} (h : n ≠ m) : n.toNat ≠ m.toNat := fun heq => h (UInt8.toNat_inj.mp heq)
  have hblock {n m : UInt8} (h : n ≠ m) (k : Nat) :
      timerFirstOff + hTimerSz * n.toNat + k + 8 ≤ timerFirstOff + hTimerSz * m.toNat + k ∨
        timerFirstOff + hTimerSz * m.toNat + k + 8 ≤ timerFirstOff + hTimerSz * n.toNat + k := by
    have hnm := htimer h
    unfold hTimerSz
    omega
  cases r with
  | config =>
      cases r' with
      | config => exact absurd rfl hne
      | _ =>
          simp only [offset, hpetConfigRegOffset, timerFirstOff]
          omega
  | timerConfig n =>
      cases r' with
      | config =>
          simp only [offset, hpetConfigRegOffset, timerFirstOff]
          omega
      | timerConfig m => exact hblock (fun h => hne (congrArg timerConfig h)) _
      | timerCompar m =>
          simp only [offset, hTimerSz, timerConfigReg, timerComparReg]
          omega
  | timerCompar n =>
      cases r' with
      | config =>
          simp only [offset, hpetConfigRegOffset, timerFirstOff]
          omega
      | timerConfig m =>
          simp only [offset, hTimerSz, timerConfigReg, timerComparReg]
          omega
      | timerCompar m => exact hblock (fun h => hne (congrArg timerCompar h)) _

theorem HpetReg.addr_eq {kernel : KernelData} (hbase : kernel.hpetAddress + 0x20f0 ≤ 2 ^ 64) (r : HpetReg) :
    r.addr kernel = kernel.hpetAddress + r.offset := by
  have hle := r.offset_le
  have hlt : kernel.hpetAddress + r.offset < 2 ^ 64 := by omega
  cases r with
  | config => exact Nat.mod_eq_of_lt hlt
  | timerConfig n =>
      rw [offset, ← Nat.add_assoc, ← Nat.add_assoc] at hlt ⊢
      exact Nat.mod_eq_of_lt hlt
  | timerCompar n =>
      rw [offset, ← Nat.add_assoc, ← Nat.add_assoc] at hlt ⊢
      exact Nat.mod_eq_of_lt hlt

def hpetRegisters (kernel : KernelData) (hbase : kernel.hpetAddress + 0x20f0 ≤ 2 ^ 64) :
    RegisterMap HpetReg where
  addr := HpetReg.addr kernel
  apart := by
    intro r r' hne
    have hoffset := HpetReg.offset_apart hne
    rw [HpetReg.addr_eq hbase, HpetReg.addr_eq hbase]
    omega

/-- A call on the registers as variables, when the main counter shows `counter`. -/
def HpetCall.apply (counter : UInt64) (regs : HpetReg → UInt64) :
    HpetCall → Option UInt64 × (HpetReg → UInt64)
  | isCounterEnabled => (some (regs .config &&& 1), regs)
  | enableCounter => (none, Function.update regs .config (regs .config ||| 1))
  | disableCounter => (none, Function.update regs .config (regs .config &&& ~~~1))
  | getMainCounter => (some counter, regs)
  | setConfig timerN reg => (none, Function.update regs (.timerConfig timerN) reg.word)
  | setCompar timerN val => (none, Function.update regs (.timerCompar timerN) val)
  | getCompar timerN => (some (regs (.timerCompar timerN)), regs)
  | setOneShot timerN msTime =>
    (none, Function.update (Function.update regs (.timerConfig timerN) oneShotConfig.word)
      (.timerCompar timerN) (counter + oneShotTicks msTime))

/-- Calls one after the other, each with what the counter shows then. -/
def applyCalls : (HpetReg → UInt64) → List (HpetCall × UInt64) →
    List (Option UInt64) × (HpetReg → UInt64)
  | regs, [] => ([], regs)
  | regs, (call, counter) :: calls =>
    let (output, regs) := call.apply counter regs
    let (outputs, regs) := applyCalls regs calls
    (output :: outputs, regs)

section Run
variable {kernel : KernelData} {hw : Hardware} {bus : Bus} {call : HpetCall} {calls : List HpetCall}
  {hbase : kernel.hpetAddress + 0x20f0 ≤ 2 ^ 64}

/-- What the counter shows when a call reads it. -/
def HpetCall.counterSeen (kernel : KernelData) (hw : Hardware) (bus : Bus) : HpetCall → UInt64
  | setOneShot timerN _ =>
    (hpetGetMainCounter kernel hw (hTimerSetConfig kernel hw bus timerN oneShotConfig)).1
  | _ => (hpetGetMainCounter kernel hw bus).1

/-- One call does to a register what it does to the variable. -/
theorem HpetCall.run_value {r : HpetReg} (halone : (hpetRegisters kernel hbase).LeftAlone hw r) :
    (hpetRegisters kernel hbase).value (call.run kernel hw bus).2.mem r =
      (call.apply (call.counterSeen kernel hw bus) ((hpetRegisters kernel hbase).value bus.mem)).2 r := by
  cases call with
  | isCounterEnabled => exact halone.value_read64 (hpetGetRegPtr kernel hpetConfigRegOffset)
  | enableCounter => exact halone.value_modify64 .config (· ||| 1)
  | disableCounter => exact halone.value_modify64 .config (· &&& ~~~1)
  | getMainCounter => exact halone.value_read64 (hpetGetRegPtr kernel hpetCounterRegOffset)
  | setConfig timerN reg => exact halone.value_write64 (.timerConfig timerN) _
  | setCompar timerN val => exact halone.value_write64 (.timerCompar timerN) _
  | getCompar timerN =>
      exact halone.value_read64 (hTimerGetTimerRegPtr kernel timerN.toNat timerComparReg)
  | setOneShot timerN msTime =>
      -- the counter is read between the two writes
      have hfirst : (hpetRegisters kernel hbase).value
          (hpetGetMainCounter kernel hw (hTimerSetConfig kernel hw bus timerN oneShotConfig)).2.mem r =
          Function.update ((hpetRegisters kernel hbase).value bus.mem) (.timerConfig timerN)
            oneShotConfig.word r :=
        (halone.value_read64 (hpetGetRegPtr kernel hpetCounterRegOffset)).trans
          (halone.value_write64 (.timerConfig timerN) _)
      refine (halone.value_write64 (.timerCompar timerN) _).trans ?_
      show Function.update _ _ _ r = Function.update _ _ _ r
      by_cases hr : r = .timerCompar timerN
      · rw [hr, Function.update_self, Function.update_self]
        rfl
      · rw [Function.update_of_ne hr, Function.update_of_ne hr]
        exact hfirst

/-- One call returns what it returns on the variables. -/
theorem HpetCall.run_output (halone : ∀ r, (hpetRegisters kernel hbase).LeftAlone hw r) :
    (call.run kernel hw bus).1 = (call.apply (call.counterSeen kernel hw bus)
      ((hpetRegisters kernel hbase).value bus.mem)).1 := by
  cases call with
  | isCounterEnabled => exact congrArg (fun reg => some (reg &&& 1)) (halone .config).read64
  | getCompar timerN => exact congrArg some (halone (.timerCompar timerN)).read64
  | _ => rfl

/-- What the counter shows when the calls of a run read it. -/
def countersSeen (kernel : KernelData) (hw : Hardware) : Bus → List HpetCall → List UInt64
  | _, [] => []
  | bus, call :: calls =>
    call.counterSeen kernel hw bus :: countersSeen kernel hw (call.run kernel hw bus).2 calls

theorem runHpet_cons : runHpet kernel hw bus (call :: calls) =
    ((call.run kernel hw bus).1 :: (runHpet kernel hw (call.run kernel hw bus).2 calls).1,
      (runHpet kernel hw (call.run kernel hw bus).2 calls).2) := rfl

theorem applyCalls_cons {regs : HpetReg → UInt64} {counter : UInt64}
    {zipped : List (HpetCall × UInt64)} : applyCalls regs ((call, counter) :: zipped) =
      ((call.apply counter regs).1 :: (applyCalls (call.apply counter regs).2 zipped).1,
        (applyCalls (call.apply counter regs).2 zipped).2) := rfl

/-- Whatever the hardware does to the rest of the memory between accesses, any sequence of calls
returns what it returns on variables, and leaves the registers as the variables. -/
theorem hpet_driver_refines_variables (halone : ∀ r, (hpetRegisters kernel hbase).LeftAlone hw r)
    (calls : List HpetCall) (bus : Bus) :
    (runHpet kernel hw bus calls).1 = (applyCalls ((hpetRegisters kernel hbase).value bus.mem)
        (calls.zip (countersSeen kernel hw bus calls))).1 ∧
      (hpetRegisters kernel hbase).value (runHpet kernel hw bus calls).2.mem =
        (applyCalls ((hpetRegisters kernel hbase).value bus.mem)
          (calls.zip (countersSeen kernel hw bus calls))).2 := by
  induction calls generalizing bus with
  | nil => exact ⟨rfl, rfl⟩
  | cons call calls ih =>
      have houtput : (call.run kernel hw bus).1 = (call.apply (call.counterSeen kernel hw bus)
          ((hpetRegisters kernel hbase).value bus.mem)).1 := HpetCall.run_output halone
      have hregs : (hpetRegisters kernel hbase).value (call.run kernel hw bus).2.mem =
          (call.apply (call.counterSeen kernel hw bus)
            ((hpetRegisters kernel hbase).value bus.mem)).2 := by
        funext r
        exact HpetCall.run_value (halone r)
      obtain ⟨houtputs, hend⟩ := ih (call.run kernel hw bus).2
      rw [hregs] at houtputs hend
      rw [countersSeen, List.zip_cons_cons, runHpet_cons, applyCalls_cons]
      exact ⟨by rw [houtput, houtputs], hend⟩

theorem runHpet_append (before after : List HpetCall) : (runHpet kernel hw bus (before ++ after)).2 =
    (runHpet kernel hw (runHpet kernel hw bus before).2 after).2 := by
  induction before generalizing bus with
  | nil => rfl
  | cons call before ih =>
      rw [List.cons_append, runHpet_cons, runHpet_cons]
      exact ih

/-- Whether the counter is enabled after a call. -/
def HpetCall.enabledAfter (enabled : Bool) : HpetCall → Bool
  | enableCounter => true
  | disableCounter => false
  | _ => enabled

theorem enable_bits (reg : UInt64) : (reg ||| 1) &&& 1 = 1 ∧ (reg ||| 1) >>> 1 = reg >>> 1 := by
  constructor
  · apply UInt64.toBitVec_inj.mp
    apply BitVec.eq_of_getLsbD_eq
    intro i hi
    by_cases hzero : i = 0
    · simp [hzero]
    · simp [hzero]
  · apply UInt64.toBitVec_inj.mp
    apply BitVec.eq_of_getLsbD_eq
    intro i hi
    simp

theorem disable_bits (reg : UInt64) :
    (reg &&& ~~~1) &&& 1 = 0 ∧ (reg &&& ~~~1) >>> 1 = reg >>> 1 := by
  constructor
  · apply UInt64.toBitVec_inj.mp
    apply BitVec.eq_of_getLsbD_eq
    intro i hi
    by_cases hzero : i = 0
    · simp [hzero]
    · simp [hzero]
  · have hmask : ∀ i : Fin 64, (i : Nat) ≠ 0 → (18446744073709551614#64).getLsbD i = true := by decide
    apply UInt64.toBitVec_inj.mp
    apply BitVec.eq_of_getLsbD_eq
    intro i hi
    simp
    exact fun hbit => hmask ⟨1 + i, BitVec.lt_of_getLsbD hbit⟩ (by simp)

/-- One call sets the lowest bit of the configuration, clears it, or leaves the configuration. -/
theorem HpetCall.apply_config (counter : UInt64) (regs : HpetReg → UInt64) (enabled : Bool)
    (h : regs .config &&& 1 = 1 ↔ enabled = true) :
    ((call.apply counter regs).2 .config &&& 1 = 1 ↔ call.enabledAfter enabled = true) ∧
      (call.apply counter regs).2 .config >>> 1 = regs .config >>> 1 := by
  cases call with
  | enableCounter =>
      obtain ⟨hbit, hothers⟩ := enable_bits (regs .config)
      simp only [apply, Function.update_self]
      exact ⟨iff_of_true hbit rfl, hothers⟩
  | disableCounter =>
      obtain ⟨hbit, hothers⟩ := disable_bits (regs .config)
      simp only [apply, Function.update_self]
      refine ⟨iff_of_false ?_ Bool.false_ne_true, hothers⟩
      rw [hbit]
      decide
  | setOneShot timerN msTime => exact ⟨h, rfl⟩
  | setConfig timerN reg => exact ⟨h, rfl⟩
  | setCompar timerN val => exact ⟨h, rfl⟩
  | _ => exact ⟨h, rfl⟩

/-- After any calls the counter is enabled if the last call about it enabled it, or if it was and there
was none; the other bits of the configuration are those it had. -/
theorem counter_enabled_by_last_call
    (halone : (hpetRegisters kernel hbase).LeftAlone hw .config) (calls : List HpetCall) (bus : Bus) :
    ((hpetRegisters kernel hbase).value (runHpet kernel hw bus calls).2.mem .config &&& 1 = 1 ↔
        calls.foldl HpetCall.enabledAfter
          ((hpetRegisters kernel hbase).value bus.mem .config &&& 1 = 1) = true) ∧
      (hpetRegisters kernel hbase).value (runHpet kernel hw bus calls).2.mem .config >>> 1 =
        (hpetRegisters kernel hbase).value bus.mem .config >>> 1 := by
  generalize henabled :
    decide ((hpetRegisters kernel hbase).value bus.mem .config &&& 1 = 1) = enabled
  have h : (hpetRegisters kernel hbase).value bus.mem .config &&& 1 = 1 ↔ enabled = true := by
    rw [← henabled, decide_eq_true_iff]
  clear henabled
  induction calls generalizing bus enabled with
  | nil => exact ⟨h, rfl⟩
  | cons call calls ih =>
      have hstep : (hpetRegisters kernel hbase).value (call.run kernel hw bus).2.mem .config = _ :=
        HpetCall.run_value halone
      obtain ⟨hbit, hothers⟩ := call.apply_config (call.counterSeen kernel hw bus) _ enabled h
      rw [← hstep] at hbit hothers
      obtain ⟨hbit', hothers'⟩ := ih (call.run kernel hw bus).2 _ hbit
      exact ⟨hbit', hothers'.trans hothers⟩

/-- The call writes the comparator of the timer. -/
def HpetCall.SetsCompar (timerN : UInt8) : HpetCall → Prop
  | setCompar n _ => n = timerN
  | setOneShot n _ => n = timerN
  | _ => False

theorem HpetCall.apply_compar {timerN : UInt8} (hcall : ¬call.SetsCompar timerN) (counter : UInt64)
    (regs : HpetReg → UInt64) :
    (call.apply counter regs).2 (.timerCompar timerN) = regs (.timerCompar timerN) := by
  have hconfig : HpetReg.timerCompar timerN ≠ .config := by simp
  have htimer (n : UInt8) : HpetReg.timerCompar timerN ≠ .timerConfig n := by simp
  cases call with
  | enableCounter => simp only [apply, Function.update_of_ne hconfig]
  | disableCounter => simp only [apply, Function.update_of_ne hconfig]
  | setConfig n reg => simp only [apply, Function.update_of_ne (htimer n)]
  | setCompar n val =>
      have hne : HpetReg.timerCompar timerN ≠ .timerCompar n := fun heq =>
        hcall (HpetReg.timerCompar.inj heq).symm
      simp only [apply, Function.update_of_ne hne]
  | setOneShot n msTime =>
      have hne : HpetReg.timerCompar timerN ≠ .timerCompar n := fun heq =>
        hcall (HpetReg.timerCompar.inj heq).symm
      simp only [apply, Function.update_of_ne hne, Function.update_of_ne (htimer n)]
  | _ => rfl

/-- Calls that do not write it leave a comparator. -/
theorem runHpet_compar {timerN : UInt8}
    (halone : (hpetRegisters kernel hbase).LeftAlone hw (.timerCompar timerN))
    (hcalls : ∀ call ∈ calls, ¬call.SetsCompar timerN) :
    (hpetRegisters kernel hbase).value (runHpet kernel hw bus calls).2.mem (.timerCompar timerN) =
      (hpetRegisters kernel hbase).value bus.mem (.timerCompar timerN) := by
  induction calls generalizing bus with
  | nil => rfl
  | cons call calls ih =>
      rw [runHpet_cons]
      refine (ih fun c hc => hcalls c (List.mem_cons_of_mem call hc)).trans ?_
      rw [HpetCall.run_value halone, HpetCall.apply_compar (hcalls call List.mem_cons_self)]

/-- The ticks of a number of milliseconds are exact as long as the nanoseconds fit 64 bits. -/
theorem oneShotTicks_exact_iff (msTime : UInt64) :
    (oneShotTicks msTime).toNat = msTime.toNat * 10000 ↔ msTime.toNat * 1000000 < 2 ^ 64 := by
  have hticks : (oneShotTicks msTime).toNat = msTime.toNat * 1000000 % 2 ^ 64 / 100 := by
    rw [oneShotTicks, UInt64.toNat_div, UInt64.toNat_mul]
    rfl
  have hlt := Nat.mod_lt (msTime.toNat * 1000000) (show 0 < 2 ^ 64 by decide)
  rw [hticks]
  constructor
  · intro h
    omega
  · intro h
    rw [Nat.mod_eq_of_lt h]
    omega

/-- As long as no later call sets the comparator of a timer, it is what a one-shot call has computed
from the counter it read; the distance is the time asked for exactly when the time in nanoseconds fits
64 bits. -/
theorem one_shot_comparator (before after : List HpetCall) (timerN : UInt8) (msTime : UInt64)
    (bus : Bus) (halone : (hpetRegisters kernel hbase).LeftAlone hw (.timerCompar timerN))
    (hafter : ∀ call ∈ after, ¬call.SetsCompar timerN) :
    (hpetRegisters kernel hbase).value
        (runHpet kernel hw bus (before ++ .setOneShot timerN msTime :: after)).2.mem
        (.timerCompar timerN) =
      (HpetCall.setOneShot timerN msTime).counterSeen kernel hw (runHpet kernel hw bus before).2 +
        oneShotTicks msTime ∧
    (((hpetRegisters kernel hbase).value
        (runHpet kernel hw bus (before ++ .setOneShot timerN msTime :: after)).2.mem
        (.timerCompar timerN) -
      (HpetCall.setOneShot timerN msTime).counterSeen kernel hw (runHpet kernel hw bus before).2).toNat =
        msTime.toNat * 10000 ↔ msTime.toNat * 1000000 < 2 ^ 64) := by
  have hcompar : (hpetRegisters kernel hbase).value
        (runHpet kernel hw bus (before ++ .setOneShot timerN msTime :: after)).2.mem
        (.timerCompar timerN) =
      (HpetCall.setOneShot timerN msTime).counterSeen kernel hw (runHpet kernel hw bus before).2 +
        oneShotTicks msTime := by
    rw [runHpet_append, runHpet_cons]
    refine (runHpet_compar halone hafter).trans ?_
    rw [HpetCall.run_value halone]
    exact Function.update_self _ _ _
  refine ⟨hcompar, ?_⟩
  rw [hcompar, ← oneShotTicks_exact_iff]
  have hcancel (c t : UInt64) : c + t - c = t := by
    rw [UInt64.add_comm, UInt64.add_sub_cancel]
  rw [hcancel]

/-- Calls that do not disable the counter leave the configuration of an enabled one. -/
theorem runHpet_config (halone : (hpetRegisters kernel hbase).LeftAlone hw .config)
    (hcalls : ∀ call ∈ calls, call ≠ .disableCounter)
    (henabled : (hpetRegisters kernel hbase).value bus.mem .config ||| 1 =
      (hpetRegisters kernel hbase).value bus.mem .config) :
    (hpetRegisters kernel hbase).value (runHpet kernel hw bus calls).2.mem .config =
      (hpetRegisters kernel hbase).value bus.mem .config := by
  induction calls generalizing bus with
  | nil => rfl
  | cons call calls ih =>
      have hfirst : (hpetRegisters kernel hbase).value (call.run kernel hw bus).2.mem .config =
          (hpetRegisters kernel hbase).value bus.mem .config := by
        rw [HpetCall.run_value halone]
        cases call with
        | enableCounter =>
            simp only [HpetCall.apply, Function.update_self]
            exact henabled
        | disableCounter => exact absurd rfl (hcalls _ List.mem_cons_self)
        | _ => rfl
      rw [runHpet_cons]
      refine (ih (fun c hc => hcalls c (List.mem_cons_of_mem call hc)) ?_).trans hfirst
      rw [hfirst, henabled]

theorem toNat_value_config (hbase : kernel.hpetAddress + 0x20f0 ≤ 2 ^ 64) (mem : Memory) :
    ((hpetRegisters kernel hbase).value mem .config).toNat =
      mem.loadLE (kernel.hpetAddress + 0x10) 8 := by
  have hlt : mem.loadLE (kernel.hpetAddress + 0x10) 8 < 256 ^ 8 := Memory.loadLE_lt
  have haddr : HpetReg.config.addr kernel = kernel.hpetAddress + 0x10 := HpetReg.addr_eq hbase .config
  show (UInt64.ofNat (mem.loadLE (HpetReg.config.addr kernel) 8)).toNat = _
  rw [haddr, UInt64.toNat_ofNat', Nat.mod_eq_of_lt (by omega)]

/-- The counter once enabled stays so under calls that do not disable it. -/
theorem loadLE_runHpet_enableCounter (halone : (hpetRegisters kernel hbase).LeftAlone hw .config)
    (hcalls : ∀ call ∈ calls, call ≠ .disableCounter) :
    (runHpet kernel hw (hpetEnableCounter kernel hw bus) calls).2.mem.loadLE
        (kernel.hpetAddress + 0x10) 8 =
      bus.mem.loadLE (kernel.hpetAddress + 0x10) 8 ||| 1 := by
  have hfirst : (hpetRegisters kernel hbase).value (hpetEnableCounter kernel hw bus).mem .config =
      (hpetRegisters kernel hbase).value bus.mem .config ||| 1 :=
    (halone.value_modify64 .config (· ||| 1)).trans (Function.update_self _ _ _)
  have hrun : (hpetRegisters kernel hbase).value
      (runHpet kernel hw (hpetEnableCounter kernel hw bus) calls).2.mem .config =
      (hpetRegisters kernel hbase).value bus.mem .config ||| 1 := by
    refine (runHpet_config halone hcalls ?_).trans hfirst
    rw [hfirst, UInt64.or_assoc, UInt64.or_self]
  rw [← toNat_value_config hbase, ← toNat_value_config hbase, hrun, UInt64.toNat_or]
  rfl

end Run

section Init
variable {kernel : KernelData} {hw : Hardware} {bus : Bus} {mem : Memory} {rsdp i : Nat}

theorem hpetGetDescTable_eq (hlength : rsdtSz ≤ sdtLength mem (rsdtAddr mem rsdp))
    (hfirst : FirstMatch mem (rsdtAddr mem rsdp) hpetStdSignature i) :
    (hpetGetDescTable mem rsdp).header = sdtTable mem (rsdtAddr mem rsdp) i := by
  have hsignature : ∀ k < 4, hpetStdSignature k ≠ 0 := by decide
  have hsearch : SearchesFrom mem (rsdtAddr mem rsdp) hpetStdSignature 0
    (sdtEntries (sdtLength mem (rsdtAddr mem rsdp))) []
      (hpetGetDescTable mem rsdp) := searchSdtTable_spec
  have hlt := (lt_sdtEntries_iff hlength).mpr hfirst.inRsdt
  exact hsearch.found i (Nat.zero_le i) (by omega) ((sdtSignatureIs_iff hsignature).mpr hfirst.bytes)
    fun j _ hj hmatch => hfirst.first j hj ((sdtSignatureIs_iff hsignature).mp hmatch)

/-- The initialisation takes the first HPET table of the RSDT and sets the lowest bit of the
configuration at the base address of that table. No other bit changes, then or under any calls that do
not disable the counter. -/
theorem hpet_init_enables_counter (kernel : KernelData) (hw : Hardware) (bus : Bus) (rsdp i : Nat)
    (calls : List HpetCall) (hlength : rsdtSz ≤ sdtLength bus.mem (rsdtAddr bus.mem rsdp))
    (hfirst : FirstMatch bus.mem (rsdtAddr bus.mem rsdp) hpetStdSignature i)
    (hbase : hpetBaseAddress bus.mem (sdtTable bus.mem (rsdtAddr bus.mem rsdp) i) + 0x20f0 ≤ 2 ^ 64)
    (halone : (hpetRegisters { kernel with
      hpetAddress := hpetBaseAddress bus.mem (sdtTable bus.mem (rsdtAddr bus.mem rsdp) i) }
        hbase).LeftAlone hw .config)
    (hcalls : ∀ call ∈ calls, call ≠ .disableCounter) :
    (hpetInit kernel hw bus rsdp).1 = sdtTable bus.mem (rsdtAddr bus.mem rsdp) i ∧
      (runHpet (hpetInit kernel hw bus rsdp).2.1 hw (hpetInit kernel hw bus rsdp).2.2
        calls).2.mem.loadLE
          (hpetBaseAddress bus.mem (sdtTable bus.mem (rsdtAddr bus.mem rsdp) i) + 0x10) 8 =
        bus.mem.loadLE
          (hpetBaseAddress bus.mem (sdtTable bus.mem (rsdtAddr bus.mem rsdp) i) + 0x10) 8 ||| 1 := by
  rw [hpetInit, hpetGetDescTable_eq hlength hfirst]
  exact ⟨rfl, loadLE_runHpet_enableCounter halone hcalls⟩

end Init

/-- Registers at `0xfed00000`, and hardware that advances the counter between accesses. -/
def tickingHpet : Hardware := fun n mem => mem.storeLE 0xfed000f0 (7 * n) 8

theorem leftAlone_tickingHpet {kernel : KernelData} {hbase : kernel.hpetAddress + 0x20f0 ≤ 2 ^ 64}
    (haddress : kernel.hpetAddress = 0xfed00000) (r : HpetReg) :
    (hpetRegisters kernel hbase).LeftAlone tickingHpet r := by
  have hoffset : r.offset + 8 ≤ 0xf0 ∨ 0xf8 ≤ r.offset := by
    cases r with
    | config => decide
    | _ =>
        simp only [HpetReg.offset, timerFirstOff]
        omega
  have hapart : r.addr kernel + 8 ≤ 0xfed000f0 ∨ 0xfed000f0 + 8 ≤ r.addr kernel := by
    rw [HpetReg.addr_eq hbase, haddress]
    omega
  intro n mem
  exact congrArg UInt64.ofNat (Memory.loadLE_storeLE_of_disjoint _ hapart)

/-- A memory with a description table of the HPET at `0x3000`. -/
def hpetFirmware : Memory := (smallAcpi 44).storeLE 0x302c 0xfed00000 8

theorem hpet_driver_refines_variables_ticking :
    (runHpet lowKernel tickingHpet ⟨hpetFirmware, 0⟩
        [.enableCounter, .setOneShot 0 1000, .getCompar 0, .isCounterEnabled]).1 =
      (applyCalls ((hpetRegisters lowKernel (by decide)).value hpetFirmware)
        ([.enableCounter, .setOneShot 0 1000, .getCompar 0, .isCounterEnabled].zip
          (countersSeen lowKernel tickingHpet ⟨hpetFirmware, 0⟩
            [.enableCounter, .setOneShot 0 1000, .getCompar 0, .isCounterEnabled]))).1 :=
  (hpet_driver_refines_variables (leftAlone_tickingHpet rfl) _ ⟨hpetFirmware, 0⟩).1

theorem counter_enabled_by_last_call_ticking :
    (hpetRegisters lowKernel (by decide)).value (runHpet lowKernel tickingHpet ⟨hpetFirmware, 0⟩
      [.disableCounter, .enableCounter, .setOneShot 0 1000]).2.mem .config &&& 1 = 1 :=
  (counter_enabled_by_last_call (leftAlone_tickingHpet rfl .config)
    [.disableCounter, .enableCounter, .setOneShot 0 1000] ⟨hpetFirmware, 0⟩).1.mpr rfl

theorem one_shot_comparator_ticking :
    (hpetRegisters lowKernel (by decide)).value (runHpet lowKernel tickingHpet ⟨hpetFirmware, 0⟩
        ([.enableCounter] ++ .setOneShot 0 1000 :: [.getMainCounter])).2.mem (.timerCompar 0) =
      (HpetCall.setOneShot 0 1000).counterSeen lowKernel tickingHpet
        (runHpet lowKernel tickingHpet ⟨hpetFirmware, 0⟩ [.enableCounter]).2 + oneShotTicks 1000 :=
  (one_shot_comparator [.enableCounter] [.getMainCounter] 0 1000 ⟨hpetFirmware, 0⟩
    (leftAlone_tickingHpet rfl (.timerCompar 0)) (by simp [HpetCall.SetsCompar])).1

theorem firstMatch_hpetFirmware :
    FirstMatch hpetFirmware (rsdtAddr hpetFirmware 0xe0000) hpetStdSignature 1 := by
  constructor
  · rw [InRsdt]
    decide +kernel
  · decide +kernel
  · decide +kernel

theorem hpetBaseAddress_hpetFirmware : hpetBaseAddress hpetFirmware
    (sdtTable hpetFirmware (rsdtAddr hpetFirmware 0xe0000) 1) = 0xfed00000 := by decide +kernel

theorem hpet_init_enables_counter_firmware :
    (hpetInit lowKernel tickingHpet ⟨hpetFirmware, 0⟩ 0xe0000).1 =
        sdtTable hpetFirmware (rsdtAddr hpetFirmware 0xe0000) 1 ∧
      (runHpet (hpetInit lowKernel tickingHpet ⟨hpetFirmware, 0⟩ 0xe0000).2.1 tickingHpet
        (hpetInit lowKernel tickingHpet ⟨hpetFirmware, 0⟩ 0xe0000).2.2
          [.setOneShot 0 1000]).2.mem.loadLE (hpetBaseAddress hpetFirmware
            (sdtTable hpetFirmware (rsdtAddr hpetFirmware 0xe0000) 1) + 0x10) 8 =
        hpetFirmware.loadLE (hpetBaseAddress hpetFirmware
          (sdtTable hpetFirmware (rsdtAddr hpetFirmware 0xe0000) 1) + 0x10) 8 ||| 1 :=
  hpet_init_enables_counter lowKernel tickingHpet ⟨hpetFirmware, 0⟩ 0xe0000 1 [.setOneShot 0 1000]
    (by decide +kernel) firstMatch_hpetFirmware
    (by rw [hpetBaseAddress_hpetFirmware]; decide)
    (leftAlone_tickingHpet hpetBaseAddress_hpetFirmware .config) (by simp)

end MyOSKernel
