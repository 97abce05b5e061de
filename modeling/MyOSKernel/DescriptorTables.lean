import MyOSKernel.AsmRoutines
import MyOSKernel.RadixTree

/-! Interrupt delivery. `_set_idt_entry` fills gates of the IDT and `load_gdt` loads the table in which
their selectors are looked up; the processor follows the gate of a vector to its handler. -/

namespace MyOSKernel

open X86

/-- `IDT_DescriptionEntry`. -/
structure IdtDescriptionEntry where
  offset1 : BitVec 16
  segmentSelector : BitVec 16
  ist : BitVec 3
  ignore1 : BitVec 5
  gateType : BitVec 4
  ignore2 : BitVec 1
  dpl : BitVec 2
  present : BitVec 1
  offset2 : BitVec 16
  offset3 : BitVec 32
  reserved1 : BitVec 32
  deriving DecidableEq

namespace IdtDescriptionEntry

def ofWord (w : Nat) : IdtDescriptionEntry where
  offset1 := BitVec.ofNat 16 w
  segmentSelector := BitVec.ofNat 16 (w / 2 ^ 16)
  ist := BitVec.ofNat 3 (w / 2 ^ 32)
  ignore1 := BitVec.ofNat 5 (w / 2 ^ 35)
  gateType := BitVec.ofNat 4 (w / 2 ^ 40)
  ignore2 := BitVec.ofNat 1 (w / 2 ^ 44)
  dpl := BitVec.ofNat 2 (w / 2 ^ 45)
  present := BitVec.ofNat 1 (w / 2 ^ 47)
  offset2 := BitVec.ofNat 16 (w / 2 ^ 48)
  offset3 := BitVec.ofNat 32 (w / 2 ^ 64)
  reserved1 := BitVec.ofNat 32 (w / 2 ^ 96)

def toWord (e : IdtDescriptionEntry) : Nat :=
  e.offset1.toNat + e.segmentSelector.toNat * 2 ^ 16 + e.ist.toNat * 2 ^ 32 + e.ignore1.toNat * 2 ^ 35 +
    e.gateType.toNat * 2 ^ 40 + e.ignore2.toNat * 2 ^ 44 + e.dpl.toNat * 2 ^ 45 +
    e.present.toNat * 2 ^ 47 + e.offset2.toNat * 2 ^ 48 + e.offset3.toNat * 2 ^ 64 +
    e.reserved1.toNat * 2 ^ 96

/-- The handler's address. -/
def offset (e : IdtDescriptionEntry) : BitVec 64 := e.offset3 ++ (e.offset2 ++ e.offset1)

end IdtDescriptionEntry

def loadGate (mem : Memory) (ptr : Nat) : IdtDescriptionEntry :=
  IdtDescriptionEntry.ofWord (mem.loadLE ptr 16)

def storeGate (mem : Memory) (ptr : Nat) (e : IdtDescriptionEntry) : Memory :=
  mem.storeLE ptr e.toWord 16

/-- `GDT_SegmentDescriptor`. -/
structure GdtSegmentDescriptor where
  limit0 : BitVec 16
  base0 : BitVec 16
  base1 : BitVec 8
  flags1 : BitVec 8
  limit1Flags2 : BitVec 8
  base2 : BitVec 8
  deriving DecidableEq

namespace GdtSegmentDescriptor

def ofWord (w : Nat) : GdtSegmentDescriptor where
  limit0 := BitVec.ofNat 16 w
  base0 := BitVec.ofNat 16 (w / 2 ^ 16)
  base1 := BitVec.ofNat 8 (w / 2 ^ 32)
  flags1 := BitVec.ofNat 8 (w / 2 ^ 40)
  limit1Flags2 := BitVec.ofNat 8 (w / 2 ^ 48)
  base2 := BitVec.ofNat 8 (w / 2 ^ 56)

def toWord (d : GdtSegmentDescriptor) : Nat :=
  d.limit0.toNat + d.base0.toNat * 2 ^ 16 + d.base1.toNat * 2 ^ 32 + d.flags1.toNat * 2 ^ 40 +
    d.limit1Flags2.toNat * 2 ^ 48 + d.base2.toNat * 2 ^ 56

end GdtSegmentDescriptor

def kernelCodeSegmentSelector : BitVec 16 := 8

def kernelDataSegmentSelector : BitVec 16 := 16

/-- The initial value of `gdt`: `null`, `kernel_code`, `kernel_data`, `user_code`, `user_data`. -/
def gdt : List GdtSegmentDescriptor :=
  [⟨0, 0, 0, 0, 0, 0⟩, ⟨0, 0, 0, 0x9a, 0xa0, 0⟩, ⟨0, 0, 0, 0x92, 0xa0, 0⟩, ⟨0, 0, 0, 0x9a, 0xa0, 0⟩,
    ⟨0, 0, 0, 0x92, 0xa0, 0⟩]

/-- The initial value of `gdtr`, `gdt` being at `base`: the size less one, and the address. The size is
that of a page, to which the type is aligned. -/
def gdtrWord (base : Nat) : Nat := 4095 + base * 2 ^ 16

def interruptGate : BitVec 8 := 14

def trapGate : BitVec 8 := 15

def pageFaultIndex : BitVec 8 := 14

def divideByZeroIndex : BitVec 8 := 0

/-- A call of `_set_idt_entry`. -/
structure GateCall where
  gateType : BitVec 8
  idtIndex : BitVec 8
  handler : BitVec 64
  segmentSelector : BitVec 16

/-- The fields `_set_idt_entry` sets; `gate_type` has four bits. -/
def IdtDescriptionEntry.fill (e : IdtDescriptionEntry) (c : GateCall) : IdtDescriptionEntry :=
  let offset := c.handler
  let offset' := offset >>> 16
  let offset'' := offset' >>> 16
  { e with
    present := 1
    gateType := c.gateType.setWidth 4
    segmentSelector := c.segmentSelector
    offset1 := (offset &&& 0xffff).setWidth 16
    offset2 := (offset' &&& 0xffff).setWidth 16
    offset3 := (offset'' &&& 0xffffffff).setWidth 32 }

/-- `_set_idt_entry`, the table being at `idt`. -/
def setIdtEntry (idt : Nat) (mem : Memory) (c : GateCall) : Memory :=
  let idtEntry := idt + 16 * c.idtIndex.toNat
  storeGate mem idtEntry ((loadGate mem idtEntry).fill c)

/-- Some calls in a row. -/
def runGateCalls (idt : Nat) (mem : Memory) (calls : List GateCall) : Memory :=
  calls.foldl (setIdtEntry idt) mem

/-- A descriptor table register. -/
structure TableRegister where
  limit : Nat
  base : Nat

/-- What `lgdt` and `lidt` load: sixteen bits and an address. -/
def TableRegister.ofBits (v : BitVec 80) : TableRegister := ⟨v.toNat % 2 ^ 16, v.toNat / 2 ^ 16⟩

/-- The calls of `init_idt`. -/
def initIdtCalls (pageFaultHandler divideByZeroHandler : BitVec 64) : List GateCall :=
  [⟨interruptGate, pageFaultIndex, pageFaultHandler, kernelCodeSegmentSelector⟩,
    ⟨trapGate, divideByZeroIndex, divideByZeroHandler, kernelCodeSegmentSelector⟩]

/-- `init_idt`, and the IDTR it loads. -/
def initIdt (idt : Nat) (pageFaultHandler divideByZeroHandler : BitVec 64) (mem : Memory) :
    TableRegister × Memory :=
  (⟨16 * 256, idt⟩, runGateCalls idt mem (initIdtCalls pageFaultHandler divideByZeroHandler))

/-! ### The processor -/

inductive Fault where
  | generalProtection
  | segmentNotPresent
  deriving DecidableEq

/-- Where an interrupt goes, on which stack, and whether others are held back meanwhile. -/
structure Delivery where
  cs : BitVec 16
  rip : BitVec 64
  ist : BitVec 3
  masked : Bool
  deriving DecidableEq

/-- The index in a selector. -/
def selectorIndex (selector : BitVec 16) : Nat := selector.toNat / 8

/-- The descriptor of a selector, which may not be null; there is no local table. -/
def segmentDescriptor (mem : Memory) (gdtr : TableRegister) (selector : BitVec 16) :
    Option GdtSegmentDescriptor :=
  let index := selectorIndex selector
  if index = 0 ∨ selector.toNat / 4 % 2 = 1 ∨ gdtr.limit < 8 * index + 7 then none
  else some (.ofWord (mem.loadLE (gdtr.base + 8 * index) 8))

/-- A code segment of ring 0 for 64-bit code. -/
def GdtSegmentDescriptor.KernelCode64 (d : GdtSegmentDescriptor) : Prop :=
  d.flags1.getLsbD 4 = true ∧ d.flags1.getLsbD 3 = true ∧ d.flags1.extractLsb' 5 2 = 0 ∧
    d.limit1Flags2.getLsbD 5 = true ∧ d.limit1Flags2.getLsbD 6 = false

instance (d : GdtSegmentDescriptor) : Decidable d.KernelCode64 :=
  inferInstanceAs (Decidable (_ ∧ _))

/-- The upper bits repeat bit 47. -/
def Canonical (a : BitVec 64) : Prop := (a.setWidth 48).signExtend 64 = a

instance (a : BitVec 64) : Decidable (Canonical a) := inferInstanceAs (Decidable (_ = _))

/-- An interrupt arrives in ring 0. -/
def deliver (mem : Memory) (idtr gdtr : TableRegister) (vector : BitVec 8) : Except Fault Delivery :=
  let gate := loadGate mem (idtr.base + 16 * vector.toNat)
  if idtr.limit < 16 * vector.toNat + 15 then .error .generalProtection
  else if gate.ignore2 ≠ 0 ∨ gate.gateType ≠ 14 ∧ gate.gateType ≠ 15 then .error .generalProtection
  else if gate.present = 0 then .error .segmentNotPresent
  else
    match segmentDescriptor mem gdtr gate.segmentSelector with
    | none => .error .generalProtection
    | some d =>
      if ¬d.KernelCode64 then .error .generalProtection
      else if d.flags1.getLsbD 7 = false then .error .segmentNotPresent
      else if ¬Canonical gate.offset then .error .generalProtection
      else .ok ⟨.ofNat 16 (8 * selectorIndex gate.segmentSelector), gate.offset, gate.ist,
        gate.gateType = 14⟩

section Gates
variable {mem mem' : Memory} {ptr ptr' idt : Nat} {e : IdtDescriptionEntry} {c : GateCall}
  {calls : List GateCall}

namespace IdtDescriptionEntry

theorem toWord_lt (e : IdtDescriptionEntry) : e.toWord < 2 ^ 128 := by
  have := e.offset1.isLt; have := e.segmentSelector.isLt; have := e.ist.isLt
  have := e.ignore1.isLt; have := e.gateType.isLt; have := e.ignore2.isLt; have := e.dpl.isLt
  have := e.present.isLt; have := e.offset2.isLt; have := e.offset3.isLt; have := e.reserved1.isLt
  unfold toWord
  omega

@[simp] theorem ofWord_toWord (e : IdtDescriptionEntry) : ofWord e.toWord = e := by
  have h1 := e.offset1.isLt
  have h2 := e.segmentSelector.isLt
  have h3 := e.ist.isLt
  have h4 := e.ignore1.isLt
  have h5 := e.gateType.isLt
  have h6 := e.ignore2.isLt
  have h7 := e.dpl.isLt
  have h8 := e.present.isLt
  have h9 := e.offset2.isLt
  have h10 := e.offset3.isLt
  have h11 := e.reserved1.isLt
  cases e with
  | mk offset1 segmentSelector ist ignore1 gateType ignore2 dpl present offset2 offset3 reserved1 =>
      simp only [ofWord, toWord, mk.injEq]
      refine ⟨?_, ?_, ?_, ?_, ?_, ?_, ?_, ?_, ?_, ?_, ?_⟩ <;> apply BitVec.eq_of_toNat_eq <;>
        rw [BitVec.toNat_ofNat] <;>
        simp only at h1 h2 h3 h4 h5 h6 h7 h8 h9 h10 h11 <;> omega

end IdtDescriptionEntry

theorem loadGate_congr (h : Set.EqOn mem'.byte mem.byte (Set.Ico ptr (ptr + 16))) :
    loadGate mem' ptr = loadGate mem ptr := by
  rw [loadGate, loadGate, Memory.loadLE_congr h]

@[simp] theorem loadGate_storeGate : loadGate (storeGate mem ptr e) ptr = e := by
  rw [loadGate, storeGate, Memory.loadLE_storeLE, Nat.mod_eq_of_lt (lt_of_lt_of_eq e.toWord_lt
    (by decide)), IdtDescriptionEntry.ofWord_toWord]

theorem storeGate_byte {a : Nat} (h : a ∉ Set.Ico ptr (ptr + 16)) :
    (storeGate mem ptr e).byte a = mem.byte a := Memory.storeLE_byte_of_notMem _ h

theorem loadGate_of_zero (h : ∀ a ∈ Set.Ico ptr (ptr + 16), mem.byte a = 0) :
    loadGate mem ptr = .ofWord 0 := by
  rw [loadGate, Memory.loadLE_eq_zero h]

/-- A call sets its own entry and leaves the others alone. -/
theorem loadGate_setIdtEntry (v : BitVec 8) :
    loadGate (setIdtEntry idt mem c) (idt + 16 * v.toNat) =
      if c.idtIndex = v then (loadGate mem (idt + 16 * v.toNat)).fill c
      else loadGate mem (idt + 16 * v.toNat) := by
  unfold setIdtEntry
  by_cases h : c.idtIndex = v
  · rw [if_pos h, h, loadGate_storeGate]
  · have hne : c.idtIndex.toNat ≠ v.toNat := fun hc => h (BitVec.eq_of_toNat_eq hc)
    rw [if_neg h]
    refine loadGate_congr fun a ha => storeGate_byte fun ha' => ?_
    obtain ⟨hlow, hhigh⟩ := ha
    obtain ⟨hlow', hhigh'⟩ := ha'
    omega

theorem setIdtEntry_byte {a : Nat} (ha : a ∉ Set.Ico idt (idt + 4096)) :
    (setIdtEntry idt mem c).byte a = mem.byte a := by
  refine storeGate_byte fun hc => ha ?_
  have hindex := c.idtIndex.isLt
  obtain ⟨hlow, hhigh⟩ := hc
  exact ⟨by omega, by omega⟩

theorem runGateCalls_byte {a : Nat} (ha : a ∉ Set.Ico idt (idt + 4096)) :
    (runGateCalls idt mem calls).byte a = mem.byte a := by
  unfold runGateCalls
  induction calls generalizing mem with
  | nil => rfl
  | cons c calls ih => rw [List.foldl_cons, ih, setIdtEntry_byte ha]

/-- The call about a vector that no later one overrides. -/
def lastGate (calls : List GateCall) (v : BitVec 8) : Option GateCall :=
  RadixTree.lastWrite (calls.map fun c => (c.idtIndex, c)) v

theorem lastGate_append_singleton (calls : List GateCall) (c : GateCall) (v : BitVec 8) :
    lastGate (calls ++ [c]) v = if c.idtIndex = v then some c else lastGate calls v := by
  rw [lastGate, List.map_append, List.map_singleton, RadixTree.lastWrite_append_singleton]
  rfl

theorem lastGate_eq_none_iff {v : BitVec 8} :
    lastGate calls v = none ↔ ∀ c ∈ calls, c.idtIndex ≠ v := by
  rw [lastGate, RadixTree.lastWrite_eq_none_iff]
  exact List.forall_mem_map

theorem lastGate_of_last {after : List GateCall} (h : ∀ c' ∈ after, c'.idtIndex ≠ c.idtIndex) :
    lastGate (calls ++ c :: after) c.idtIndex = some c := by
  rw [lastGate, List.map_append, List.map_cons]
  exact RadixTree.lastWrite_of_last (List.forall_mem_map.mpr h)

/-- After a run each entry is as it was or as the last call about it has filled it. -/
theorem loadGate_runGateCalls (mem : Memory) (idt : Nat) (calls : List GateCall) (v : BitVec 8) :
    loadGate (runGateCalls idt mem calls) (idt + 16 * v.toNat) =
      (lastGate calls v).elim (loadGate mem (idt + 16 * v.toNat))
        (loadGate mem (idt + 16 * v.toNat)).fill := by
  induction calls using List.reverseRecOn with
  | nil => rfl
  | append_singleton calls c ih =>
      rw [runGateCalls, List.foldl_append, List.foldl_cons, List.foldl_nil, loadGate_setIdtEntry,
        ← runGateCalls, ih, lastGate_append_singleton]
      by_cases hc : c.idtIndex = v
      · rw [if_pos hc, if_pos hc]
        cases lastGate calls v with
        | none => rfl
        | some c' => rfl
      · rw [if_neg hc, if_neg hc]

/-- The three parts of the address put together. -/
theorem IdtDescriptionEntry.offset_fill (e : IdtDescriptionEntry) (c : GateCall) :
    (e.fill c).offset = c.handler := by
  have hmask (w i : Nat) (hw : w ≤ 64) (hi : i < w) : (BitVec.ofNat 64 (2 ^ w - 1)).getLsbD i = true := by
    rw [BitVec.getLsbD_ofNat, Nat.testBit_two_pow_sub_one, decide_eq_true hi, decide_eq_true (by omega)]
    rfl
  have hword (i : Nat) (hi : i < 16) : BitVec.getLsbD (0xffff : BitVec 64) i = true :=
    hmask 16 i (by decide) hi
  have hlong (i : Nat) (hi : i < 32) : BitVec.getLsbD (0xffffffff : BitVec 64) i = true :=
    hmask 32 i (by decide) hi
  apply BitVec.eq_of_getLsbD_eq
  intro i hi
  simp only [offset, fill, BitVec.getLsbD_append, BitVec.getLsbD_setWidth, BitVec.getLsbD_and,
    BitVec.getLsbD_ushiftRight]
  split_ifs with hlow hfirst
  · rw [hword i hfirst, decide_eq_true hfirst, Bool.true_and, Bool.and_true]
  · have hindex : 16 + (i - 16) = i := by omega
    rw [hword (i - 16) (by omega), decide_eq_true (by omega), Bool.true_and, Bool.and_true, hindex]
  · have hindex : 16 + (16 + (i - (16 + 16))) = i := by omega
    rw [hlong (i - (16 + 16)) (by omega), decide_eq_true (by omega), Bool.true_and, Bool.and_true, hindex]

end Gates

section Segments
variable {mem mem' : Memory} {gdtr : TableRegister} {base : Nat}

/-- The table at `base` is the initial one: the five descriptors, and zeros up to the end of the page. -/
structure HoldsGdt (mem : Memory) (base : Nat) : Prop where
  descriptor : ∀ i d, gdt[i]? = some d → mem.loadLE (base + 8 * i) 8 = d.toWord
  padding : ∀ a ∈ Set.Ico (base + 40) (base + 4096), mem.byte a = 0

theorem HoldsGdt.congr (h : HoldsGdt mem base)
    (hbytes : Set.EqOn mem'.byte mem.byte (Set.Ico base (base + 4096))) : HoldsGdt mem' base := by
  refine ⟨fun i d hd => ?_, fun a ha => ?_⟩
  · have hi : i < 5 := (List.getElem?_eq_some_iff.mp hd).1
    rw [← h.descriptor i d hd]
    exact Memory.loadLE_congr (hbytes.mono (Set.Ico_subset_Ico (by omega) (by omega)))
  · rw [← h.padding a ha]
    exact hbytes (Set.Ico_subset_Ico_left (by omega) ha)

/-- Every slot of the page has a descriptor or zeros. -/
theorem HoldsGdt.slot (h : HoldsGdt mem base) {i : Nat} (hi : i < 512) :
    GdtSegmentDescriptor.ofWord (mem.loadLE (base + 8 * i) 8) = gdt[i]?.getD ⟨0, 0, 0, 0, 0, 0⟩ := by
  cases hd : gdt[i]? with
  | some d =>
      have hword : GdtSegmentDescriptor.ofWord d.toWord = d := by
        have hall : ∀ d ∈ gdt, GdtSegmentDescriptor.ofWord d.toWord = d := by decide
        exact hall d (List.mem_of_getElem? hd)
      rw [h.descriptor i d hd, hword, Option.getD_some]
  | none =>
      have hfive : 5 ≤ i := List.getElem?_eq_none_iff.mp hd
      have hzero : mem.loadLE (base + 8 * i) 8 = 0 := Memory.loadLE_eq_zero fun a ha =>
        h.padding a (Set.Ico_subset_Ico (by omega) (by omega) ha)
      rw [hzero]
      rfl

/-- Selectors of `kernel_code` and `user_code`, whatever their privilege level. -/
def SelectsCode (selector : BitVec 16) : Prop :=
  selector.toNat / 4 = 2 ∨ selector.toNat / 4 = 6

instance (selector : BitVec 16) : Decidable (SelectsCode selector) :=
  inferInstanceAs (Decidable (_ ∨ _))

/-- The two code descriptors. -/
def codeDescriptor : GdtSegmentDescriptor := ⟨0, 0, 0, 0x9a, 0xa0, 0⟩

/-- The null and the data segments and the zeros behind them are no code segments. -/
theorem not_kernelCode64 {i : Nat} (h1 : i ≠ 1) (h3 : i ≠ 3) :
    ¬(gdt[i]?.getD ⟨0, 0, 0, 0, 0, 0⟩).KernelCode64 := by
  rcases Nat.lt_or_ge i 5 with hi | hi
  · interval_cases i
    · decide
    · exact absurd rfl h1
    · decide
    · exact absurd rfl h3
    · decide
  · rw [List.getElem?_eq_none hi]
    decide

/-- Code selectors give a code segment of ring 0; the others give none. -/
theorem segmentDescriptor_cases (hgdt : HoldsGdt mem base) (selector : BitVec 16) :
    (SelectsCode selector ∧
        segmentDescriptor mem ⟨4095, base⟩ selector = some codeDescriptor) ∨
      ¬SelectsCode selector ∧
        ∀ d, segmentDescriptor mem ⟨4095, base⟩ selector = some d → ¬d.KernelCode64 := by
  unfold segmentDescriptor SelectsCode
  by_cases hnone : selectorIndex selector = 0 ∨ selector.toNat / 4 % 2 = 1 ∨
      4095 < 8 * selectorIndex selector + 7
  · refine Or.inr ⟨?_, fun d hd => ?_⟩
    · unfold selectorIndex at hnone
      omega
    · simp only [if_pos hnone] at hd
      exact absurd hd (by simp)
  · simp only [if_neg hnone, Option.some.injEq, forall_eq',
      hgdt.slot (show selectorIndex selector < 512 by omega)]
    have hhalf : selector.toNat / 4 = 2 * selectorIndex selector := by
      unfold selectorIndex at hnone ⊢
      omega
    by_cases hcode : selectorIndex selector = 1 ∨ selectorIndex selector = 3
    · refine Or.inl ⟨by omega, ?_⟩
      rcases hcode with h | h
      · rw [h]
        rfl
      · rw [h]
        rfl
    · exact Or.inr ⟨by omega, not_kernelCode64 (fun h => hcode (Or.inl h)) fun h => hcode (Or.inr h)⟩

end Segments

section Delivery
variable {mem : Memory} {idt base : Nat} {calls : List GateCall} {v : BitVec 8}

/-- Where a gate leads. -/
def GateCall.target (c : GateCall) : Except Fault Delivery :=
  if (c.gateType.setWidth 4 = 14 ∨ c.gateType.setWidth 4 = 15) ∧ SelectsCode c.segmentSelector ∧
      Canonical c.handler then
    .ok ⟨.ofNat 16 (8 * selectorIndex c.segmentSelector), c.handler, 0, c.gateType.setWidth 4 = 14⟩
  else .error .generalProtection

theorem target_kernelCode {gateType idtIndex : BitVec 8} {handler : BitVec 64}
    (hkind : gateType.setWidth 4 = 14 ∨ gateType.setWidth 4 = 15) (hcanonical : Canonical handler) :
    GateCall.target ⟨gateType, idtIndex, handler, kernelCodeSegmentSelector⟩ =
      .ok ⟨kernelCodeSegmentSelector, handler, 0, gateType.setWidth 4 = 14⟩ := by
  have hcode : SelectsCode kernelCodeSegmentSelector := by decide
  have hcs : BitVec.ofNat 16 (8 * selectorIndex kernelCodeSegmentSelector) = kernelCodeSegmentSelector := by
    decide
  rw [GateCall.target, if_pos ⟨hkind, hcode, hcanonical⟩, hcs]

theorem deliver_of_gate {idtr : TableRegister} {c : GateCall} (hgdt : HoldsGdt mem base)
    (hlimit : 16 * v.toNat + 15 ≤ idtr.limit)
    (hgate : loadGate mem (idtr.base + 16 * v.toNat) = (IdtDescriptionEntry.ofWord 0).fill c) :
    deliver mem idtr ⟨4095, base⟩ v = c.target := by
  have hignore : ((IdtDescriptionEntry.ofWord 0).fill c).ignore2 = 0 := rfl
  have htype : ((IdtDescriptionEntry.ofWord 0).fill c).gateType = c.gateType.setWidth 4 := rfl
  have hpresent : ((IdtDescriptionEntry.ofWord 0).fill c).present = 1 := rfl
  have hselector : ((IdtDescriptionEntry.ofWord 0).fill c).segmentSelector = c.segmentSelector := rfl
  unfold deliver GateCall.target
  simp only [hgate, if_neg (not_lt.mpr hlimit), IdtDescriptionEntry.offset_fill, hignore, htype,
    hpresent, hselector]
  by_cases hkind : c.gateType.setWidth 4 = 14 ∨ c.gateType.setWidth 4 = 15
  · rw [if_neg (by tauto), if_neg (by decide)]
    rcases segmentDescriptor_cases hgdt c.segmentSelector with ⟨hcode, hsome⟩ | ⟨hcode, hnone⟩
    · have hkernel : codeDescriptor.KernelCode64 := by decide
      have hthere : codeDescriptor.flags1.getLsbD 7 = true := by decide
      simp only [hsome, hkernel, hthere, hkind, hcode, not_true_eq_false, if_false, true_and]
      by_cases hcanonical : Canonical c.handler
      · rw [if_neg (not_not.mpr hcanonical), if_pos hcanonical]
        rfl
      · rw [if_pos hcanonical, if_neg hcanonical]
        rfl
    · have htarget : ¬((c.gateType.setWidth 4 = 14 ∨ c.gateType.setWidth 4 = 15) ∧
          SelectsCode c.segmentSelector ∧ Canonical c.handler) := fun h => hcode h.2.1
      rw [if_neg htarget]
      cases hd : segmentDescriptor mem ⟨4095, base⟩ c.segmentSelector with
      | none => rfl
      | some d => simp only [hnone d hd, not_false_eq_true, if_true]
  · rw [if_pos (by tauto), if_neg fun h => hkind h.1]

theorem deliver_of_zero {idtr gdtr : TableRegister}
    (hgate : loadGate mem (idtr.base + 16 * v.toNat) = IdtDescriptionEntry.ofWord 0) :
    deliver mem idtr gdtr v = .error .generalProtection := by
  have hkind : (IdtDescriptionEntry.ofWord 0).ignore2 ≠ 0 ∨
      (IdtDescriptionEntry.ofWord 0).gateType ≠ 14 ∧ (IdtDescriptionEntry.ofWord 0).gateType ≠ 15 := by
    decide
  unfold deliver
  simp only [hgate, if_pos hkind, ite_self]

theorem deliver_runGateCalls (hzero : ∀ a ∈ Set.Ico idt (idt + 4096), mem.byte a = 0)
    (hgdt : HoldsGdt mem base)
    (hapart : ∀ a ∈ Set.Ico base (base + 4096), a ∉ Set.Ico idt (idt + 4096)) (v : BitVec 8) :
    deliver (runGateCalls idt mem calls) ⟨16 * 256, idt⟩ ⟨4095, base⟩ v =
      (lastGate calls v).elim (.error .generalProtection) GateCall.target := by
  have hv := v.isLt
  have hblank : loadGate mem (idt + 16 * v.toNat) = IdtDescriptionEntry.ofWord 0 :=
    loadGate_of_zero fun a ha => hzero a (Set.Ico_subset_Ico (by omega) (by omega) ha)
  have hgate := loadGate_runGateCalls mem idt calls v
  rw [hblank] at hgate
  cases hlast : lastGate calls v with
  | none =>
      rw [hlast] at hgate
      exact deliver_of_zero hgate
  | some c =>
      rw [hlast] at hgate
      have hgdt' : HoldsGdt (runGateCalls idt mem calls) base :=
        hgdt.congr fun a ha => runGateCalls_byte (hapart a ha)
      exact deliver_of_gate hgdt' (by dsimp only; omega) hgate

/-- **An interrupt goes where its gate was last set to.** The IDT being zero before, after any calls of
`_set_idt_entry` a vector faults that no call was about, and another arrives at the handler of the last
call about it, if that named an interrupt or trap gate, a code segment and a canonical address. Nothing
outside the table changes. -/
theorem interrupts_reach_last_gate (mem : Memory) (idt base : Nat) (calls : List GateCall)
    (hzero : ∀ a ∈ Set.Ico idt (idt + 4096), mem.byte a = 0) (hgdt : HoldsGdt mem base)
    (hapart : ∀ a ∈ Set.Ico base (base + 4096), a ∉ Set.Ico idt (idt + 4096)) :
    (∀ v, (∀ c ∈ calls, c.idtIndex ≠ v) →
        deliver (runGateCalls idt mem calls) ⟨16 * 256, idt⟩ ⟨4095, base⟩ v = .error .generalProtection) ∧
      (∀ before c after, calls = before ++ c :: after → (∀ c' ∈ after, c'.idtIndex ≠ c.idtIndex) →
        deliver (runGateCalls idt mem calls) ⟨16 * 256, idt⟩ ⟨4095, base⟩ c.idtIndex = c.target) ∧
      ∀ a, a ∉ Set.Ico idt (idt + 4096) → (runGateCalls idt mem calls).byte a = mem.byte a := by
  refine ⟨fun v hnone => ?_, fun before c after heq hlast => ?_, fun a ha => runGateCalls_byte ha⟩
  · rw [deliver_runGateCalls hzero hgdt hapart, lastGate_eq_none_iff.mpr hnone]
    rfl
  · rw [deliver_runGateCalls hzero hgdt hapart, heq, lastGate_of_last hlast]
    rfl

end Delivery

section LoadGdt
variable {cpuid : Cpuid} {s s' : State}

/-- Writing sixteen bits of a register and reading them. -/
theorem setWidth_append_low (high : BitVec 48) (low : BitVec 16) : (high ++ low).setWidth 16 = low := by
  apply BitVec.eq_of_getLsbD_eq
  intro i hi
  rw [BitVec.getLsbD_setWidth, BitVec.getLsbD_append, if_pos hi, decide_eq_true hi, Bool.true_and]

/-- `load_gdt` loads GDTR from its argument and the six selectors, and it stores to its stack only. -/
structure LoadsSegments (s s' : State) : Prop where
  gdtr : s'.gdtr = BitVec.ofNat 80 (s.mem.loadLE (s.regs .rdi).toNat 10)
  code : s'.segs .cs = 8
  data : ∀ r, r ≠ .cs → s'.segs r = 16
  bytes : ∀ a, a ∉ Set.Ico (s.regs .rsp).toNat ((s.regs .rsp).toNat + 8) →
    a ∉ Set.Ico (s.regs .rsp - 8).toNat ((s.regs .rsp - 8).toNat + 8) → s'.mem.byte a = s.mem.byte a

theorem LoadsSegments.of_call (h : AsmRoutine.loadGdt.Call cpuid s s') : LoadsSegments s s' := by
  have hstate : s' = (execAll cpuid farReturnOps (execAll cpuid loadSegmentsOps s)).retfq :=
    returns_loadGdt.mp h
  obtain ⟨_, hrsp⟩ := loadSegmentsOps_spec cpuid s
  have hmem : (execAll cpuid loadSegmentsOps s).mem = s.mem := execAll_mem (by decide)
  have hgdtr : (execAll cpuid loadSegmentsOps s).gdtr =
      BitVec.ofNat 80 (s.mem.loadLE (s.regs .rdi).toNat 10) := rfl
  have hsegs : ∀ r, r ≠ .cs → (execAll cpuid loadSegmentsOps s).segs r = 16 := by
    intro r hr
    have hax : ((s.regs .rax).extractLsb' 16 48 ++ (16 : BitVec 16)).setWidth 16 = 16 :=
      setWidth_append_low _ _
    cases r with
    | cs => exact absurd rfl hr
    | ds => exact hax
    | es => exact hax
    | fs => exact hax
    | gs => exact hax
    | ss => exact hax
  generalize execAll cpuid loadSegmentsOps s = t at *
  -- the stack at the far return
  obtain ⟨b, hb⟩ : ∃ b : State, b = (t.drop.setReg .rdi t.top).setReg .rax 8 := ⟨_, rfl⟩
  have hrun : execAll cpuid farReturnOps t = (b.push 8).push t.top := by
    rw [hb]
    rfl
  have hbrsp : b.regs .rsp - 8 = s.regs .rsp := by
    rw [← hrsp, hb]
    exact BitVec.add_sub_cancel _ _
  have hbmem : b.mem = s.mem := by
    rw [hb, ← hmem]
    rfl
  have hbsegs : b.segs = t.segs := by
    rw [hb]
    rfl
  have hbgdtr : b.gdtr = t.gdtr := by
    rw [hb]
    rfl
  rw [hstate, hrun]
  refine ⟨hbgdtr.trans hgdtr, ?_, fun r hr => ?_, fun a ha ha' => ?_⟩
  · have htop : ((b.push 8).push t.top).drop.top = 8 := top_drop_push.trans top_push
    show Function.update b.segs SegReg.cs (((b.push 8).push t.top).drop.top.setWidth 16) .cs = 8
    rw [Function.update_self, htop]
    rfl
  · show Function.update b.segs SegReg.cs _ r = 16
    rw [Function.update_of_ne hr, hbsegs, hsegs r hr]
  · have hpush : (b.push 8).regs .rsp = s.regs .rsp := hbrsp
    show ((b.push 8).push t.top).mem.byte a = s.mem.byte a
    rw [push_byte (by rw [hpush]; exact ha'), push_byte (by rw [hbrsp]; exact ha), hbmem]

theorem ofBits_gdtrWord {base : Nat} (hbase : base < 2 ^ 64) :
    TableRegister.ofBits (BitVec.ofNat 80 (gdtrWord base)) = ⟨4095, base⟩ := by
  unfold TableRegister.ofBits gdtrWord
  rw [BitVec.toNat_ofNat]
  congr 1
  · omega
  · omega

/-- **What the descriptor tables are for.** After `load_gdt` and later `init_idt` the segment registers
hold the kernel's selectors, a division by zero arrives at its handler with interrupts as they were, a
page fault at its own with interrupts held back, and every other vector faults. -/
theorem init_tables_deliver (cpuid : Cpuid) (s s' : State) (mem : Memory) (idt base : Nat)
    (pageFaultHandler divideByZeroHandler : BitVec 64) (hbase : base < 2 ^ 64)
    (hgdtr : s.mem.loadLE (s.regs .rdi).toNat 10 = gdtrWord base) (hgdt : HoldsGdt s.mem base)
    (hstack : ∀ a ∈ Set.Ico base (base + 4096),
      a ∉ Set.Ico (s.regs .rsp).toNat ((s.regs .rsp).toNat + 8) ∧
        a ∉ Set.Ico (s.regs .rsp - 8).toNat ((s.regs .rsp - 8).toNat + 8))
    (hload : AsmRoutine.loadGdt.Call cpuid s s')
    (hkept : Set.EqOn mem.byte s'.mem.byte (Set.Ico base (base + 4096)))
    (hzero : ∀ a ∈ Set.Ico idt (idt + 4096), mem.byte a = 0)
    (hapart : ∀ a ∈ Set.Ico base (base + 4096), a ∉ Set.Ico idt (idt + 4096))
    (hpageFault : Canonical pageFaultHandler) (hdivide : Canonical divideByZeroHandler) :
    (s'.segs .cs = kernelCodeSegmentSelector ∧ ∀ r, r ≠ .cs → s'.segs r = kernelDataSegmentSelector) ∧
      ∀ v, deliver (initIdt idt pageFaultHandler divideByZeroHandler mem).2
          (initIdt idt pageFaultHandler divideByZeroHandler mem).1 (.ofBits s'.gdtr) v =
        if v = divideByZeroIndex then
          .ok ⟨kernelCodeSegmentSelector, divideByZeroHandler, 0, false⟩
        else if v = pageFaultIndex then .ok ⟨kernelCodeSegmentSelector, pageFaultHandler, 0, true⟩
        else .error .generalProtection := by
  have hloads := LoadsSegments.of_call hload
  refine ⟨⟨hloads.code, hloads.data⟩, fun v => ?_⟩
  have hgdt' : HoldsGdt mem base := by
    refine hgdt.congr fun a ha => (hkept ha).trans ?_
    exact hloads.bytes a (hstack a ha).1 (hstack a ha).2
  rw [hloads.gdtr, hgdtr, ofBits_gdtrWord hbase]
  refine (deliver_runGateCalls hzero hgdt' hapart v).trans ?_
  have hlast : lastGate (initIdtCalls pageFaultHandler divideByZeroHandler) v =
      if divideByZeroIndex = v then
        some ⟨trapGate, divideByZeroIndex, divideByZeroHandler, kernelCodeSegmentSelector⟩
      else if pageFaultIndex = v then
        some ⟨interruptGate, pageFaultIndex, pageFaultHandler, kernelCodeSegmentSelector⟩
      else none :=
    (lastGate_append_singleton [_] _ v).trans (congrArg _ (lastGate_append_singleton [] _ v))
  rw [hlast]
  by_cases hzeroth : v = divideByZeroIndex
  · rw [if_pos hzeroth.symm, if_pos hzeroth]
    exact target_kernelCode (Or.inr rfl) hdivide
  · rw [if_neg (Ne.symm hzeroth), if_neg hzeroth]
    by_cases hfault : v = pageFaultIndex
    · rw [if_pos hfault.symm, if_pos hfault]
      exact target_kernelCode (Or.inl rfl) hpageFault
    · rw [if_neg (Ne.symm hfault), if_neg hfault]
      rfl

end LoadGdt

/-- Memory with GDTR at `0x100` and the GDT at `0x1000`. -/
def tablesMemory : Memory where
  byte a :=
    if 0x100 ≤ a ∧ a < 0x10a then UInt8.ofNat (gdtrWord 0x1000 / 256 ^ (a - 0x100))
    else if 0x1000 ≤ a ∧ a < 0x1028 then
      (gdt[(a - 0x1000) / 8]?).elim 0 fun d => UInt8.ofNat (d.toWord / 256 ^ ((a - 0x1000) % 8))
    else 0
  writes := []

/-- The state in which `load_gdt` is called there. -/
def tablesState : State :=
  { callState with
    regs := fun
      | .rdi => 0x100
      | .rsp => 0x8000
      | _ => 0
    mem := tablesMemory }

theorem holdsGdt_tablesMemory : HoldsGdt tablesMemory 0x1000 := by
  refine ⟨fun i d hd => ?_, fun a ha => ?_⟩
  · have hi : i < 5 := (List.getElem?_eq_some_iff.mp hd).1
    interval_cases i
    · cases hd
      decide +kernel
    · cases hd
      decide +kernel
    · cases hd
      decide +kernel
    · cases hd
      decide +kernel
    · cases hd
      decide +kernel
  · have hlow : 0x1028 ≤ a := ha.1
    have hgdtr : ¬(0x100 ≤ a ∧ a < 0x10a) := by omega
    have hgdt : ¬(0x1000 ≤ a ∧ a < 0x1028) := by omega
    exact (if_neg hgdtr).trans (if_neg hgdt)

theorem zero_tablesMemory {a : Nat} (ha : a ∈ Set.Ico 0x2000 (0x2000 + 4096)) :
    tablesMemory.byte a = 0 := by
  obtain ⟨hlow, hhigh⟩ := ha
  have hgdtr : ¬(0x100 ≤ a ∧ a < 0x10a) := by omega
  have hgdt : ¬(0x1000 ≤ a ∧ a < 0x1028) := by omega
  exact (if_neg hgdtr).trans (if_neg hgdt)

theorem apart_tablesMemory :
    ∀ a ∈ Set.Ico 0x1000 (0x1000 + 4096), a ∉ Set.Ico 0x2000 (0x2000 + 4096) := by
  intro a ha ha'
  obtain ⟨hlow, hhigh⟩ := ha
  obtain ⟨hlow', hhigh'⟩ := ha'
  omega

/-- A vector is set twice, the second time to a trap gate. -/
theorem interrupts_reach_last_gate_twice :
    deliver (runGateCalls 0x2000 tablesMemory [⟨14, 3, 0x5000, 8⟩, ⟨15, 3, 0x6000, 24⟩])
      ⟨16 * 256, 0x2000⟩ ⟨4095, 0x1000⟩ 3 = .ok ⟨24, 0x6000, 0, false⟩ :=
  (interrupts_reach_last_gate tablesMemory 0x2000 0x1000 [⟨14, 3, 0x5000, 8⟩, ⟨15, 3, 0x6000, 24⟩]
    (fun _ => zero_tablesMemory) holdsGdt_tablesMemory apart_tablesMemory).2.1
      [⟨14, 3, 0x5000, 8⟩] ⟨15, 3, 0x6000, 24⟩ [] rfl (by simp)

/-- The state in which `load_gdt` returns there. -/
def tablesLoaded : State :=
  (execAll smallCpuid farReturnOps (execAll smallCpuid loadSegmentsOps tablesState)).retfq

theorem call_tablesLoaded : AsmRoutine.loadGdt.Call smallCpuid tablesState tablesLoaded :=
  returns_loadGdt.mpr rfl

/-- Only the stack has changed. -/
theorem tablesLoaded_byte {a : Nat} (ha : a < 0x7ff8) :
    tablesLoaded.mem.byte a = tablesMemory.byte a := by
  have hrsp : (tablesState.regs .rsp).toNat = 0x8000 := rfl
  have hbelow : (tablesState.regs .rsp - 8).toNat = 0x7ff8 := rfl
  refine (LoadsSegments.of_call call_tablesLoaded).bytes a ?_ ?_
  · rw [hrsp]
    exact fun h => absurd h.1 (by omega)
  · rw [hbelow]
    exact fun h => absurd h.1 (by omega)

/-- A page fault there. -/
theorem init_tables_deliver_page_fault :
    deliver (initIdt 0x2000 0x5000 0x6000 tablesLoaded.mem).2
        (initIdt 0x2000 0x5000 0x6000 tablesLoaded.mem).1 (.ofBits tablesLoaded.gdtr) pageFaultIndex =
      .ok ⟨kernelCodeSegmentSelector, 0x5000, 0, true⟩ := by
  have hstack : ∀ a ∈ Set.Ico 0x1000 (0x1000 + 4096),
      a ∉ Set.Ico (tablesState.regs .rsp).toNat ((tablesState.regs .rsp).toNat + 8) ∧
        a ∉ Set.Ico (tablesState.regs .rsp - 8).toNat ((tablesState.regs .rsp - 8).toNat + 8) := by
    have hrsp : (tablesState.regs .rsp).toNat = 0x8000 := rfl
    have hbelow : (tablesState.regs .rsp - 8).toNat = 0x7ff8 := rfl
    intro a ha
    obtain ⟨_, hhigh⟩ := ha
    rw [hrsp, hbelow]
    exact ⟨fun h => absurd h.1 (by omega), fun h => absurd h.1 (by omega)⟩
  exact (init_tables_deliver smallCpuid tablesState tablesLoaded tablesLoaded.mem 0x2000 0x1000 0x5000
    0x6000 (by decide) (by decide +kernel) holdsGdt_tablesMemory hstack call_tablesLoaded
    (Set.eqOn_refl _ _)
    (fun a ha => (tablesLoaded_byte (ha.2.trans (by decide))).trans (zero_tablesMemory ha))
    apart_tablesMemory (by decide) (by decide)).2 pageFaultIndex

end MyOSKernel
