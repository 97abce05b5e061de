import MyOSKernel.Stdlib
import MyOSKernel.RadixTree
import Mathlib.Data.Nat.Bitwise

/-! The bitmap of `bitmap.c`. Its header, a count of fields and a pointer to the bits, lies at the
start of the buffer, and so do the bits: the pointer leads back to the header. As an array of bits it
is faithful, each store changing one bit; but the first 128 bits are the header's. -/

namespace MyOSKernel

/-- `_get_bitmap_offset`: the byte and the bit, counted from the highest. -/
def getBitmapOffset (index : Nat) : Nat × Nat := (index / 8, index % 8)

/-- `self->buffer`, eight bytes after `self->size`. -/
def bitmapBuffer (s : TracedMemory) (self : Nat) : Nat × TracedMemory :=
  s.loadLE ((self + 8) % 2 ^ 64) 8

def bitmapGet (s : TracedMemory) (self index : Nat) : Bool × TracedMemory :=
  let offset := getBitmapOffset index
  let buffer := bitmapBuffer s self
  let result := buffer.2.load ((buffer.1 + offset.1) % 2 ^ 64)
  ((result.1.toNat <<< offset.2) &&& (1 <<< 7) ≠ 0, result.2)

/-- `self->buffer[byte_offset] = f(self->buffer[byte_offset])`. -/
def updateBitmapByte (s : TracedMemory) (self byteOffset : Nat) (f : UInt8 → UInt8) : TracedMemory :=
  let buffer := bitmapBuffer s self
  let byte := buffer.2.load ((buffer.1 + byteOffset) % 2 ^ 64)
  byte.2.store ((buffer.1 + byteOffset) % 2 ^ 64) (f byte.1)

def bitmapSet (s : TracedMemory) (self index : Nat) (value : Bool) : TracedMemory :=
  let offset := getBitmapOffset index
  let bitPattern := UInt8.ofNat ((1 <<< 7) >>> offset.2)
  let s := updateBitmapByte s self offset.1 (· &&& ~~~bitPattern)
  if value then updateBitmapByte s self offset.1 (· ||| bitPattern) else s

/-- The bitmap, `NULL` when the fields do not fit in the buffer without the header's `size`. -/
def bitmapInit (s : TracedMemory) (noFields buffer buffSize : Nat) : Nat × TracedMemory :=
  if noFields > (buffSize + (2 ^ 64 - 8)) % 2 ^ 64 * 8 % 2 ^ 64 then (0, s)
  else
    let mem := memset s.mem buffer 0x0 buffSize
    let mem := mem.storeLE buffer noFields 8
    (buffer, { s with mem := mem.storeLE ((buffer + 8) % 2 ^ 64) buffer 8 })

section Byte
variable {j k : Nat}

theorem toNat_bitPattern (hj : j < 8) : (UInt8.ofNat ((1 <<< 7) >>> j)).toNat = 2 ^ (7 - j) := by
  have hpow : (1 <<< 7) >>> j = 2 ^ (7 - j) := by
    rw [Nat.one_shiftLeft, Nat.shiftRight_eq_div_pow]
    exact Nat.pow_div (by omega) (by decide)
  have hlt : 2 ^ (7 - j) < 2 ^ 8 := Nat.pow_lt_pow_right (by decide) (by omega)
  rw [hpow]
  exact UInt8.toNat_ofNat_of_lt' hlt

theorem testBit_clear (b : UInt8) (hj : j < 8) (hk : k < 8) :
    (b &&& ~~~UInt8.ofNat ((1 <<< 7) >>> j)).toNat.testBit k =
      (b.toNat.testBit k && decide (k ≠ 7 - j)) := by
  have hpow : 2 ^ (7 - j) < 2 ^ 8 := Nat.pow_lt_pow_right (by decide) (by omega)
  have hnot : (~~~UInt8.ofNat ((1 <<< 7) >>> j)).toNat = 2 ^ 8 - (2 ^ (7 - j) + 1) := by
    rw [UInt8.toNat_not, toNat_bitPattern hj]
    show 2 ^ 8 - 1 - _ = _
    omega
  rw [UInt8.toNat_and, Nat.testBit_and, hnot, Nat.testBit_two_pow_sub_succ hpow,
    Nat.testBit_two_pow]
  simp [hk, eq_comm]

theorem testBit_mark (b : UInt8) (hj : j < 8) (k : Nat) :
    (b ||| UInt8.ofNat ((1 <<< 7) >>> j)).toNat.testBit k =
      (b.toNat.testBit k || decide (k = 7 - j)) := by
  rw [UInt8.toNat_or, Nat.testBit_or, toNat_bitPattern hj, Nat.testBit_two_pow]
  simp [eq_comm]

/-- Shifting the bit to the highest place and masking reads it. -/
theorem shiftLeft_and_ne_zero_iff (n : Nat) (hj : j < 8) :
    (n <<< j) &&& (1 <<< 7) ≠ 0 ↔ n.testBit (7 - j) = true := by
  rw [Nat.one_shiftLeft, Nat.and_two_pow, Nat.testBit_shiftLeft]
  have hge : 7 ≥ j := by omega
  cases n.testBit (7 - j) with
  | false => simp [hge]
  | true => simp [hge]

theorem byte_eq_of_testBit {a b : UInt8}
    (h : ∀ k < 8, a.toNat.testBit k = b.toNat.testBit k) : a = b := by
  apply UInt8.toNat_inj.mp
  apply Nat.eq_of_testBit_eq
  intro k
  by_cases hk : k < 8
  · exact h k hk
  · have hpow : 2 ^ 8 ≤ 2 ^ k := Nat.pow_le_pow_right (by decide) (by omega)
    rw [Nat.testBit_lt_two_pow (a.toNat_lt.trans_le hpow),
      Nat.testBit_lt_two_pow (b.toNat_lt.trans_le hpow)]

end Byte

/-- The bytes of `self->buffer`. -/
def pointerBytes (self : Nat) : Set Nat :=
  Set.Ico ((self + 8) % 2 ^ 64) ((self + 8) % 2 ^ 64 + 8)

theorem pointerBytes_eq {self : Nat} (h : self + 16 ≤ 2 ^ 64) :
    pointerBytes self = Set.Ico (self + 8) (self + 16) := by
  rw [pointerBytes, Nat.mod_eq_of_lt (show self + 8 < 2 ^ 64 by omega)]

/-- The bit number `i` from `base` on, the highest of each byte first. -/
def bitAt (mem : Memory) (base i : Nat) : Bool :=
  (mem.byte ((base + i / 8) % 2 ^ 64)).toNat.testBit (7 - i % 8)

section Bits
variable {s : TracedMemory} {self base i j : Nat} {value : Bool}

theorem bitmapGet_eq_bitAt (hbase : s.mem.loadLE ((self + 8) % 2 ^ 64) 8 = base) :
    (bitmapGet s self i).1 = bitAt s.mem base i := by
  have hread : (bitmapGet s self i).1 = decide
      (((s.mem.byte ((base + i / 8) % 2 ^ 64)).toNat <<< (i % 8)) &&& (1 <<< 7) ≠ 0) := by
    rw [← hbase]
    rfl
  rw [hread, bitAt, Bool.eq_iff_iff, decide_eq_true_iff]
  exact shiftLeft_and_ne_zero_iff _ (Nat.mod_lt i (by decide))

theorem updateBitmapByte_mem (hbase : s.mem.loadLE ((self + 8) % 2 ^ 64) 8 = base)
    (byteOffset : Nat) (f : UInt8 → UInt8) : (updateBitmapByte s self byteOffset f).mem =
      s.mem.store ((base + byteOffset) % 2 ^ 64)
        (f (s.mem.byte ((base + byteOffset) % 2 ^ 64))) := by
  rw [← hbase]
  rfl

theorem bitmapSet_false : bitmapSet s self i false =
    updateBitmapByte s self (i / 8) (· &&& ~~~UInt8.ofNat ((1 <<< 7) >>> (i % 8))) := rfl

theorem bitmapSet_true : bitmapSet s self i true =
    updateBitmapByte (bitmapSet s self i false) self (i / 8)
      (· ||| UInt8.ofNat ((1 <<< 7) >>> (i % 8))) := rfl

/-- A store changes one byte, where the pointer to the bits is not among the bits. -/
theorem bitmapSet_byte (hbase : s.mem.loadLE ((self + 8) % 2 ^ 64) 8 = base)
    (hkept : (base + i / 8) % 2 ^ 64 ∉ pointerBytes self) :
    let old := s.mem.byte ((base + i / 8) % 2 ^ 64)
    let bitPattern := UInt8.ofNat ((1 <<< 7) >>> (i % 8))
    (bitmapSet s self i value).mem.byte = Function.update s.mem.byte ((base + i / 8) % 2 ^ 64)
      (if value then (old &&& ~~~bitPattern) ||| bitPattern else old &&& ~~~bitPattern) := by
  intro old bitPattern
  have hclear := updateBitmapByte_mem hbase (i / 8) (· &&& ~~~bitPattern)
  rw [← bitmapSet_false] at hclear
  cases value with
  | false =>
      rw [hclear]
      rfl
  | true =>
      have hbase' : (bitmapSet s self i false).mem.loadLE ((self + 8) % 2 ^ 64) 8 = base := by
        rw [← hbase]
        apply Memory.loadLE_congr
        intro a ha
        rw [hclear]
        apply Memory.store_byte_of_ne
        rintro rfl
        exact hkept ha
      rw [bitmapSet_true, updateBitmapByte_mem hbase', hclear, Memory.store_byte_self]
      exact Function.update_idem _ _ _

/-- So the pointer stays. -/
theorem bitmapSet_pointer (hbase : s.mem.loadLE ((self + 8) % 2 ^ 64) 8 = base)
    (hkept : (base + i / 8) % 2 ^ 64 ∉ pointerBytes self) :
    (bitmapSet s self i value).mem.loadLE ((self + 8) % 2 ^ 64) 8 = base := by
  rw [← hbase]
  apply Memory.loadLE_congr
  intro a ha
  rw [bitmapSet_byte hbase hkept]
  apply Function.update_of_ne
  intro heq
  exact hkept (heq ▸ ha)

/-- And in the byte one bit. -/
theorem bitAt_bitmapSet (hbase : s.mem.loadLE ((self + 8) % 2 ^ 64) 8 = base)
    (hkept : (base + i / 8) % 2 ^ 64 ∉ pointerBytes self)
    (hi : i < 2 ^ 64) (hj : j < 2 ^ 64) :
    bitAt (bitmapSet s self i value).mem base j = if j = i then value else bitAt s.mem base j := by
  rw [bitAt, bitmapSet_byte hbase hkept]
  by_cases hbyte : (base + j / 8) % 2 ^ 64 = (base + i / 8) % 2 ^ 64
  · have hdiv : j / 8 = i / 8 := by omega
    have hmod : 7 - j % 8 = 7 - i % 8 ↔ j = i := by omega
    have hi8 : i % 8 < 8 := Nat.mod_lt i (by decide)
    rw [hbyte, Function.update_self, bitAt, hbyte]
    cases value with
    | false =>
        rw [if_neg (by decide), testBit_clear _ hi8 (by omega)]
        simp only [ne_eq, hmod]
        by_cases hji : j = i
        · simp [hji]
        · simp [hji]
    | true =>
        rw [if_pos rfl, testBit_mark _ hi8, testBit_clear _ hi8 (by omega)]
        simp only [ne_eq, hmod]
        by_cases hji : j = i
        · simp [hji]
        · simp [hji]
  · rw [Function.update_of_ne hbyte, if_neg]
    · rfl
    · rintro rfl
      exact hbyte rfl

/-- Clearing a clear bit changes nothing. -/
theorem bitmapSet_false_byte (hbase : s.mem.loadLE ((self + 8) % 2 ^ 64) 8 = base)
    (hkept : (base + i / 8) % 2 ^ 64 ∉ pointerBytes self)
    (hclear : bitAt s.mem base i = false) : (bitmapSet s self i false).mem.byte = s.mem.byte := by
  rw [bitmapSet_byte hbase hkept, if_neg (by decide)]
  apply Function.update_eq_self_iff.mpr
  apply byte_eq_of_testBit
  intro k hk
  rw [testBit_clear _ (Nat.mod_lt i (by decide)) hk]
  have hold : (s.mem.byte ((base + i / 8) % 2 ^ 64)).toNat.testBit (7 - i % 8) = false := hclear
  by_cases hkj : k = 7 - i % 8
  · rw [hkj, hold, Bool.false_and]
  · simp [hkj]

theorem mem_reads_loadLE {a b n : Nat} :
    b ∈ (s.loadLE a n).2.reads ↔ b ∈ Set.Ico a (a + n) ∨ b ∈ s.reads := by
  show b ∈ (List.range n).map (a + ·) ++ s.reads ↔ _
  rw [List.mem_append, List.mem_map]
  have hrange : (∃ k ∈ List.range n, a + k = b) ↔ b ∈ Set.Ico a (a + n) := by
    constructor
    · intro h
      obtain ⟨k, hk, rfl⟩ := h
      have := List.mem_range.mp hk
      exact ⟨by omega, by omega⟩
    · intro h
      have hlow := h.1
      have hhigh := h.2
      exact ⟨b - a, List.mem_range.mpr (by omega), by omega⟩
  rw [hrange]

theorem mem_accesses_store {a b : Nat} {v : UInt8} :
    a ∈ (s.store b v).accesses ↔ a = b ∨ a ∈ s.accesses := by
  rw [TracedMemory.accesses, TracedMemory.accesses, TracedMemory.store, Memory.store_writes,
    List.mem_append, List.mem_append, List.mem_cons]
  exact or_left_comm

/-- Reading a byte of the bits reads the pointer first. -/
theorem mem_accesses_load {b a : Nat} :
    a ∈ ((bitmapBuffer s self).2.load b).2.accesses ↔
      a ∈ pointerBytes self ∨ a = b ∨ a ∈ s.accesses := by
  have hreads : ((bitmapBuffer s self).2.load b).2.reads =
      b :: (s.loadLE ((self + 8) % 2 ^ 64) 8).2.reads := rfl
  have hwrites : ((bitmapBuffer s self).2.load b).2.mem.writes = s.mem.writes := rfl
  rw [TracedMemory.accesses, TracedMemory.accesses, hreads, hwrites, List.mem_append,
    List.mem_append, List.mem_cons, mem_reads_loadLE, pointerBytes]
  constructor
  · intro h
    obtain (hbyte | hpointer | hread) | hwrite := h
    · exact Or.inr (Or.inl hbyte)
    · exact Or.inl hpointer
    · exact Or.inr (Or.inr (Or.inl hread))
    · exact Or.inr (Or.inr (Or.inr hwrite))
  · intro h
    obtain hpointer | hbyte | hread | hwrite := h
    · exact Or.inl (Or.inr (Or.inl hpointer))
    · exact Or.inl (Or.inl hbyte)
    · exact Or.inl (Or.inr (Or.inr hread))
    · exact Or.inr hwrite

theorem mem_accesses_bitmapGet (hbase : s.mem.loadLE ((self + 8) % 2 ^ 64) 8 = base) {a : Nat} :
    a ∈ (bitmapGet s self i).2.accesses ↔
      a ∈ pointerBytes self ∨ a = (base + i / 8) % 2 ^ 64 ∨ a ∈ s.accesses := by
  have hstate : (bitmapGet s self i).2 =
      ((bitmapBuffer s self).2.load ((base + i / 8) % 2 ^ 64)).2 := by
    simp only [bitmapGet, getBitmapOffset, bitmapBuffer, TracedMemory.loadLE, hbase]
  rw [hstate, mem_accesses_load]

theorem mem_accesses_updateBitmapByte (hbase : s.mem.loadLE ((self + 8) % 2 ^ 64) 8 = base)
    (byteOffset : Nat) (f : UInt8 → UInt8) {a : Nat} :
    a ∈ (updateBitmapByte s self byteOffset f).accesses ↔
      a ∈ pointerBytes self ∨ a = (base + byteOffset) % 2 ^ 64 ∨ a ∈ s.accesses := by
  have hstate : updateBitmapByte s self byteOffset f =
      ((bitmapBuffer s self).2.load ((base + byteOffset) % 2 ^ 64)).2.store
        ((base + byteOffset) % 2 ^ 64) (f (s.mem.byte ((base + byteOffset) % 2 ^ 64))) := by
    simp only [updateBitmapByte, bitmapBuffer, TracedMemory.loadLE, TracedMemory.load, hbase]
  rw [hstate, mem_accesses_store, mem_accesses_load]
  constructor
  · intro h
    obtain hbyte | h := h
    · exact Or.inr (Or.inl hbyte)
    · exact h
  · exact Or.inr

theorem mem_accesses_bitmapSet (hbase : s.mem.loadLE ((self + 8) % 2 ^ 64) 8 = base)
    (hkept : (base + i / 8) % 2 ^ 64 ∉ pointerBytes self) {a : Nat}
    (ha : a ∈ (bitmapSet s self i value).accesses) :
    a ∈ pointerBytes self ∨
      a = (base + i / 8) % 2 ^ 64 ∨ a ∈ s.accesses := by
  cases value with
  | false =>
      rw [bitmapSet_false] at ha
      exact (mem_accesses_updateBitmapByte hbase _ _).mp ha
  | true =>
      rw [bitmapSet_true] at ha
      have hbase' : (bitmapSet s self i false).mem.loadLE ((self + 8) % 2 ^ 64) 8 = base :=
        bitmapSet_pointer hbase hkept
      obtain hpointer | hbyte | hrest := (mem_accesses_updateBitmapByte hbase' _ _).mp ha
      · exact Or.inl hpointer
      · exact Or.inr (Or.inl hbyte)
      · rw [bitmapSet_false] at hrest
        exact (mem_accesses_updateBitmapByte hbase _ _).mp hrest

end Bits

/-- A call of `Bitmap_set`. -/
structure BitmapOp where
  index : Nat
  value : Bool

def bitmapRun (s : TracedMemory) (self : Nat) (ops : List BitmapOp) : TracedMemory :=
  ops.foldl (fun s op => bitmapSet s self op.index op.value) s

/-- The value stored last at an index, if any was. -/
def lastStored (ops : List BitmapOp) (i : Nat) : Option Bool :=
  RadixTree.lastWrite (ops.map fun op => (op.index, op.value)) i

section Run
variable {s : TracedMemory} {self base : Nat} {ops : List BitmapOp} {op : BitmapOp}

theorem bitmapRun_nil : bitmapRun s self [] = s := rfl

theorem bitmapRun_append_singleton :
    bitmapRun s self (ops ++ [op]) = bitmapSet (bitmapRun s self ops) self op.index op.value := by
  rw [bitmapRun, List.foldl_append]
  rfl

theorem lastStored_append_singleton (i : Nat) : lastStored (ops ++ [op]) i =
    if op.index = i then some op.value else lastStored ops i := by
  rw [lastStored, List.map_append]
  exact RadixTree.lastWrite_append_singleton

/-- The bits are a faithful array as long as no store meets the pointer to them. -/
theorem bitmapRun_spec (hbase : s.mem.loadLE ((self + 8) % 2 ^ 64) 8 = base)
    (hindex : ∀ op ∈ ops, op.index < 2 ^ 64)
    (hkept : ∀ op ∈ ops, (base + op.index / 8) % 2 ^ 64 ∉ pointerBytes self) :
    (bitmapRun s self ops).mem.loadLE ((self + 8) % 2 ^ 64) 8 = base ∧
      ∀ j < 2 ^ 64, bitAt (bitmapRun s self ops).mem base j =
        (lastStored ops j).getD (bitAt s.mem base j) := by
  induction ops using List.reverseRecOn with
  | nil => exact ⟨hbase, fun j _ => rfl⟩
  | append_singleton ops op ih =>
      have hold : ∀ op' ∈ ops, op' ∈ ops ++ [op] := fun _ h => List.mem_append_left _ h
      have hop : op ∈ ops ++ [op] := by simp
      obtain ⟨hpointer, hbits⟩ :=
        ih (fun op' h => hindex op' (hold op' h)) fun op' h => hkept op' (hold op' h)
      rw [bitmapRun_append_singleton]
      constructor
      · exact bitmapSet_pointer hpointer (hkept op hop)
      · intro j hj
        rw [bitAt_bitmapSet hpointer (hkept op hop) (hindex op hop) hj, hbits j hj,
          lastStored_append_singleton]
        by_cases h : j = op.index
        · rw [if_pos h, if_pos h.symm, Option.getD_some]
        · rw [if_neg h, if_neg (Ne.symm h)]

theorem mem_accesses_bitmapRun (hbase : s.mem.loadLE ((self + 8) % 2 ^ 64) 8 = base)
    (hindex : ∀ op ∈ ops, op.index < 2 ^ 64)
    (hkept : ∀ op ∈ ops, (base + op.index / 8) % 2 ^ 64 ∉ pointerBytes self) {a : Nat}
    (ha : a ∈ (bitmapRun s self ops).accesses) :
    a ∈ pointerBytes self ∨
      (∃ op ∈ ops, a = (base + op.index / 8) % 2 ^ 64) ∨ a ∈ s.accesses := by
  induction ops using List.reverseRecOn with
  | nil => exact Or.inr (Or.inr ha)
  | append_singleton ops op ih =>
      have hold : ∀ op' ∈ ops, op' ∈ ops ++ [op] := fun _ h => List.mem_append_left _ h
      have hop : op ∈ ops ++ [op] := by simp
      have hindex' : ∀ op' ∈ ops, op'.index < 2 ^ 64 := fun op' h => hindex op' (hold op' h)
      have hkept' := fun op' h => hkept op' (hold op' h)
      have hpointer := (bitmapRun_spec hbase hindex' hkept').1
      rw [bitmapRun_append_singleton] at ha
      obtain hp | hbyte | hrest := mem_accesses_bitmapSet hpointer (hkept op hop) ha
      · exact Or.inl hp
      · exact Or.inr (Or.inl ⟨op, hop, hbyte⟩)
      · obtain hp | hbyte | hstart := ih hindex' hkept' hrest
        · exact Or.inl hp
        · obtain ⟨op', hop', heq⟩ := hbyte
          exact Or.inr (Or.inl ⟨op', hold op' hop', heq⟩)
        · exact Or.inr (Or.inr hstart)

/-- Clearing clear bits changes nothing. -/
theorem bitmapRun_false_byte (hbase : s.mem.loadLE ((self + 8) % 2 ^ 64) 8 = base)
    (hindex : ∀ op ∈ ops, op.index < 2 ^ 64)
    (hkept : ∀ op ∈ ops, (base + op.index / 8) % 2 ^ 64 ∉ pointerBytes self)
    (hvalue : ∀ op ∈ ops, op.value = false)
    (hclear : ∀ op ∈ ops, bitAt s.mem base op.index = false) :
    (bitmapRun s self ops).mem.byte = s.mem.byte := by
  induction ops using List.reverseRecOn with
  | nil => rfl
  | append_singleton ops op ih =>
      have hold : ∀ op' ∈ ops, op' ∈ ops ++ [op] := fun _ h => List.mem_append_left _ h
      have hop : op ∈ ops ++ [op] := by simp
      have hindex' : ∀ op' ∈ ops, op'.index < 2 ^ 64 := fun op' h => hindex op' (hold op' h)
      have hkept' := fun op' h => hkept op' (hold op' h)
      have hpointer := (bitmapRun_spec hbase hindex' hkept').1
      have hbytes := ih hindex' hkept' (fun op' h => hvalue op' (hold op' h))
        fun op' h => hclear op' (hold op' h)
      have hbit : bitAt (bitmapRun s self ops).mem base op.index = false := by
        rw [bitAt, hbytes]
        exact hclear op hop
      rw [bitmapRun_append_singleton, hvalue op hop,
        bitmapSet_false_byte hpointer (hkept op hop) hbit, hbytes]

end Run

section Header
variable {s : TracedMemory} {mem : Memory} {noFields buffer buffSize i : Nat}

/-- The first bits are those of the field count, which lies where they do. -/
theorem bitAt_size (hsize : mem.loadLE buffer 8 = noFields) (hbuffer : buffer + 8 ≤ 2 ^ 64)
    (hi : i < 64) : bitAt mem buffer i = noFields.testBit (8 * (i / 8) + (7 - i % 8)) := by
  have haddr : (buffer + i / 8) % 2 ^ 64 = buffer + i / 8 := Nat.mod_eq_of_lt (by omega)
  have hbyte := mem.byte_toNat_eq_loadLE_div (a := buffer) (show i / 8 < 8 by omega)
  have hpow : (256 : Nat) ^ (i / 8) = 2 ^ (8 * (i / 8)) := by rw [Nat.pow_mul]
  rw [bitAt, haddr, hbyte, hsize, hpow, show (256 : Nat) = 2 ^ 8 by decide, Nat.testBit_mod_two_pow,
    Nat.testBit_div_two_pow, decide_eq_true (by omega), Bool.true_and, Nat.add_comm]

theorem bitmapInit_of_ne_zero (hinit : (bitmapInit s noFields buffer buffSize).1 ≠ 0) :
    (bitmapInit s noFields buffer buffSize).1 = buffer ∧
      (bitmapInit s noFields buffer buffSize).2.reads = s.reads ∧
      (bitmapInit s noFields buffer buffSize).2.mem =
        ((memset s.mem buffer 0x0 buffSize).storeLE buffer noFields 8).storeLE
          ((buffer + 8) % 2 ^ 64) buffer 8 := by
  unfold bitmapInit at hinit ⊢
  by_cases hsmall : noFields > (buffSize + (2 ^ 64 - 8)) % 2 ^ 64 * 8 % 2 ^ 64
  · rw [if_pos hsmall] at hinit
    exact absurd rfl hinit
  · rw [if_neg hsmall]
    exact ⟨rfl, rfl, rfl⟩

/-- What a bitmap promises after some stores. -/
structure FaithfulBitmap (noFields buffer buffSize : Nat) (ops : List BitmapOp) (s : TracedMemory) :
    Prop where
  size : s.mem.loadLE buffer 8 = noFields
  pointer : s.mem.loadLE ((buffer + 8) % 2 ^ 64) 8 = buffer
  accesses : ∀ a ∈ s.accesses, a ∈ Set.Ico buffer (buffer + buffSize)
  get : ∀ i < noFields, (bitmapGet s buffer i).1 = (lastStored ops i).getD false
  get_accesses : ∀ i < noFields, ∀ a ∈ (bitmapGet s buffer i).2.accesses,
    a ∈ Set.Ico buffer (buffer + buffSize)

/-- The stores of `bitmapInit`. -/
theorem mem_accesses_bitmapInit (hbuffer : buffer < 2 ^ 64)
    (hinit : (bitmapInit s noFields buffer buffSize).1 ≠ 0) {a : Nat} :
    a ∈ (bitmapInit s noFields buffer buffSize).2.accesses ↔
      a ∈ s.accesses ∨ (∃ k < buffSize, a = (buffer + k) % 2 ^ 64) ∨
        a ∈ Set.Ico buffer (buffer + 8) ∨
          a ∈ pointerBytes buffer := by
  obtain ⟨-, hreads, hmem⟩ := bitmapInit_of_ne_zero hinit
  rw [TracedMemory.accesses, TracedMemory.accesses, hreads, hmem, List.mem_append, List.mem_append,
    Memory.mem_writes_storeLE, Memory.mem_writes_storeLE, mem_writes_memset hbuffer]
  constructor
  · intro h
    obtain hread | hpointer | hsize | hset | hwrite := h
    · exact Or.inl (Or.inl hread)
    · exact Or.inr (Or.inr (Or.inr hpointer))
    · exact Or.inr (Or.inr (Or.inl hsize))
    · exact Or.inr (Or.inl hset)
    · exact Or.inl (Or.inr hwrite)
  · intro h
    obtain (hread | hwrite) | hset | hsize | hpointer := h
    · exact Or.inl hread
    · exact Or.inr (Or.inr (Or.inr (Or.inr hwrite)))
    · exact Or.inr (Or.inr (Or.inr (Or.inl hset)))
    · exact Or.inr (Or.inr (Or.inl hsize))
    · exact Or.inr (Or.inl hpointer)

theorem bitmapInit_header (hfields : noFields < 2 ^ 64) (hbuffer : buffer + 16 ≤ 2 ^ 64)
    (hinit : (bitmapInit s noFields buffer buffSize).1 ≠ 0) :
    (bitmapInit s noFields buffer buffSize).2.mem.loadLE buffer 8 = noFields ∧
      (bitmapInit s noFields buffer buffSize).2.mem.loadLE ((buffer + 8) % 2 ^ 64) 8 = buffer := by
  obtain ⟨-, -, hmem⟩ := bitmapInit_of_ne_zero hinit
  have hpointer : (buffer + 8) % 2 ^ 64 = buffer + 8 := Nat.mod_eq_of_lt (by omega)
  have hpow : (256 : Nat) ^ 8 = 2 ^ 64 := by decide
  rw [hmem, hpointer]
  constructor
  · rw [Memory.loadLE_storeLE_of_disjoint _ (Or.inl le_rfl), Memory.loadLE_storeLE, hpow,
      Nat.mod_eq_of_lt hfields]
  · rw [Memory.loadLE_storeLE, hpow, Nat.mod_eq_of_lt (by omega)]

end Header

section Faithful
variable {s : TracedMemory} {noFields buffer buffSize i : Nat} {ops before : List BitmapOp}

/-- The field that shows the leading bit of the field count. -/
theorem exists_field_of_five_lt (h : 5 < noFields) (hfields : noFields < 2 ^ 64) :
    ∃ i < noFields, i < 64 ∧ noFields.testBit (8 * (i / 8) + (7 - i % 8)) = true := by
  have hb : noFields.log2 < 64 := (Nat.log2_lt (by omega)).mpr hfields
  have hpow : 2 ^ noFields.log2 ≤ noFields := Nat.log2_self_le (by omega)
  have hb2 : 2 ≤ noFields.log2 := (Nat.le_log2 (by omega)).mpr (by omega)
  have hlead : noFields.testBit noFields.log2 = true := Nat.testBit_log2 (by omega)
  generalize noFields.log2 = b at hb hpow hb2 hlead
  have hplace : 8 * ((8 * (b / 8) + (7 - b % 8)) / 8) + (7 - (8 * (b / 8) + (7 - b % 8)) % 8) = b := by
    omega
  refine ⟨8 * (b / 8) + (7 - b % 8), ?_, by omega, by rwa [hplace]⟩
  by_cases hb4 : b < 4
  · -- The byte of the count is the first one here.
    have : b / 8 = 0 := by omega
    omega
  · have hgrow : b - 4 < 2 ^ (b - 4) := Nat.lt_two_pow_self
    have hsplit : 2 ^ b = 2 ^ 4 * 2 ^ (b - 4) := by
      rw [← Nat.pow_add]
      congr 1
      omega
    omega

/-- Counts up to five do not show in the fields. -/
theorem testBit_field_of_le_five (h : noFields ≤ 5) (hi : i < noFields) :
    noFields.testBit (8 * (i / 8) + (7 - i % 8)) = false := by
  interval_cases noFields <;> interval_cases i <;> decide

/-- A faithful bitmap has few fields, and they stay clear: the first fields are the count's bits. -/
theorem clear_of_faithful (hfields : noFields < 2 ^ 64) (hbuffer : buffer + 16 ≤ 2 ^ 64)
    (hops : ∀ op ∈ ops, op.index < noFields)
    (hfaithful : ∀ before after, ops = before ++ after →
      FaithfulBitmap noFields buffer buffSize before (bitmapRun s buffer before)) :
    noFields ≤ 5 ∧ ∀ op ∈ ops, op.value = false := by
  have hstart := hfaithful [] ops rfl
  have hbits : ∀ before after, ops = before ++ after → ∀ i < 64,
      bitAt (bitmapRun s buffer before).mem buffer i =
        noFields.testBit (8 * (i / 8) + (7 - i % 8)) :=
    fun before after hsplit i hi => bitAt_size (hfaithful before after hsplit).size (by omega) hi
  have hclear : ∀ i < noFields, i < 64 →
      noFields.testBit (8 * (i / 8) + (7 - i % 8)) = false := by
    intro i hi hi64
    rw [← hbits [] ops rfl i hi64, ← bitmapGet_eq_bitAt hstart.pointer, hstart.get i hi]
    rfl
  have hfew : noFields ≤ 5 := by
    by_contra hmany
    obtain ⟨i, hi, hi64, hset⟩ := exists_field_of_five_lt (by omega) hfields
    rw [hclear i hi hi64] at hset
    exact absurd hset (by decide)
  refine ⟨hfew, fun op hop => ?_⟩
  obtain ⟨before, after, hsplit⟩ := List.append_of_mem hop
  have hsplit' : ops = (before ++ [op]) ++ after := by rw [hsplit]; simp
  have hindex := hops op hop
  have hpointer := (hfaithful before _ hsplit).pointer
  have hkept : (buffer + op.index / 8) % 2 ^ 64 ∉ pointerBytes buffer := by
    intro hc
    have hlow := hc.1
    omega
  have hindex64 : op.index < 2 ^ 64 := hindex.trans hfields
  have hstored : bitAt (bitmapSet (bitmapRun s buffer before) buffer op.index op.value).mem buffer
      op.index = if op.index = op.index then op.value else _ :=
    bitAt_bitmapSet hpointer hkept hindex64 hindex64
  rw [if_pos rfl, ← bitmapRun_append_singleton, hbits _ _ hsplit' _ (by omega),
    hclear _ hindex (by omega)] at hstored
  exact hstored.symm

/-- And few fields that stay clear are a faithful bitmap. -/
theorem faithful_of_clear (hsize : 16 ≤ buffSize) (hfits : buffer + buffSize ≤ 2 ^ 64)
    (hcount : s.mem.loadLE buffer 8 = noFields)
    (hpointer : s.mem.loadLE ((buffer + 8) % 2 ^ 64) 8 = buffer)
    (haccesses : ∀ a ∈ s.accesses, a ∈ Set.Ico buffer (buffer + buffSize))
    (hfew : noFields ≤ 5) (hops : ∀ op ∈ ops, op.index < noFields)
    (hvalue : ∀ op ∈ ops, op.value = false) :
    FaithfulBitmap noFields buffer buffSize ops (bitmapRun s buffer ops) := by
  have hself := pointerBytes_eq (show buffer + 16 ≤ 2 ^ 64 by omega)
  have hfield : ∀ i < noFields, (buffer + i / 8) % 2 ^ 64 = buffer := by
    intro i hi
    omega
  have hindex : ∀ op ∈ ops, op.index < 2 ^ 64 := fun op hop => by
    have := hops op hop
    omega
  have hkept : ∀ op ∈ ops, (buffer + op.index / 8) % 2 ^ 64 ∉ pointerBytes buffer := by
    intro op hop hc
    rw [hfield _ (hops op hop), hself] at hc
    have hlow := hc.1
    omega
  have hclear : ∀ i < noFields, bitAt s.mem buffer i = false := by
    intro i hi
    rw [bitAt_size hcount (by omega) (by omega)]
    exact testBit_field_of_le_five hfew hi
  have hbytes := bitmapRun_false_byte hpointer hindex hkept hvalue
    fun op hop => hclear _ (hops op hop)
  obtain ⟨hpointer', hbits⟩ := bitmapRun_spec hpointer hindex hkept
  have hinside : ∀ a ∈ pointerBytes buffer,
      a ∈ Set.Ico buffer (buffer + buffSize) := by
    rw [hself]
    exact Set.Ico_subset_Ico (by omega) (by omega)
  have hfirst : buffer ∈ Set.Ico buffer (buffer + buffSize) := ⟨le_rfl, by omega⟩
  have hrange : ∀ a ∈ (bitmapRun s buffer ops).accesses,
      a ∈ Set.Ico buffer (buffer + buffSize) := by
    intro a ha
    obtain hp | ⟨op, hop, hbyte⟩ | hstart := mem_accesses_bitmapRun hpointer hindex hkept ha
    · exact hinside a hp
    · rw [hbyte, hfield _ (hops op hop)]
      exact hfirst
    · exact haccesses a hstart
  exact {
    size := by
      rw [← hcount]
      exact Memory.loadLE_congr fun a _ => congrFun hbytes a
    pointer := hpointer'
    accesses := hrange
    get := by
      intro i hi
      rw [bitmapGet_eq_bitAt hpointer', hbits i (by omega), hclear i hi]
    get_accesses := by
      intro i hi a ha
      obtain hp | hbyte | hrest := (mem_accesses_bitmapGet hpointer').mp ha
      · exact hinside a hp
      · rw [hbyte, hfield i hi]
        exact hfirst
      · exact hrange a hrest }

/-- A bitmap is faithful exactly when it is large enough for its header and holds at most five
fields, none of them ever set. -/
theorem bitmap_faithful_iff (byte : Nat → UInt8) (hfields : noFields < 2 ^ 64)
    (hbuffer : buffer < 2 ^ 64) (hfits : buffer + buffSize ≤ 2 ^ 64)
    (hinit : (bitmapInit ⟨⟨byte, []⟩, []⟩ noFields buffer buffSize).1 ≠ 0)
    (hops : ∀ op ∈ ops, op.index < noFields) :
    (∀ before after, ops = before ++ after →
        FaithfulBitmap noFields buffer buffSize before
          (bitmapRun (bitmapInit ⟨⟨byte, []⟩, []⟩ noFields buffer buffSize).2
            (bitmapInit ⟨⟨byte, []⟩, []⟩ noFields buffer buffSize).1 before)) ↔
      16 ≤ buffSize ∧ noFields ≤ 5 ∧ ∀ op ∈ ops, op.value = false := by
  obtain ⟨hself, -, -⟩ := bitmapInit_of_ne_zero hinit
  have haccesses := fun a => mem_accesses_bitmapInit (a := a) hbuffer hinit
  have hheader := fun hsize => bitmapInit_header hfields hsize hinit
  rw [hself]
  generalize (bitmapInit ⟨⟨byte, []⟩, []⟩ noFields buffer buffSize).2 = start at haccesses hheader ⊢
  constructor
  · intro hfaithful
    have hpointer : (buffer + 8) % 2 ^ 64 + 7 ∈
        Set.Ico ((buffer + 8) % 2 ^ 64) ((buffer + 8) % 2 ^ 64 + 8) := ⟨by omega, by omega⟩
    have hlast := (haccesses ((buffer + 8) % 2 ^ 64 + 7)).mpr (Or.inr (Or.inr (Or.inr hpointer)))
    have hstart := hfaithful [] ops rfl
    rw [bitmapRun_nil] at hstart
    have hinside := hstart.accesses _ hlast
    have hlow := hinside.1
    have hhigh := hinside.2
    have hsize : 16 ≤ buffSize := by omega
    exact ⟨hsize, clear_of_faithful hfields (by omega) hops hfaithful⟩
  · intro h before after hsplit
    obtain ⟨hsize, hfew, hvalue⟩ := h
    have hbefore : ∀ op ∈ before, op ∈ ops := fun op hop => hsplit ▸ List.mem_append_left _ hop
    obtain ⟨hcount, hpointer⟩ := hheader (by omega)
    have hinside : ∀ a ∈ start.accesses, a ∈ Set.Ico buffer (buffer + buffSize) := by
      intro a ha
      obtain hnone | ⟨k, hk, rfl⟩ | hsize | hpointer := (haccesses a).mp ha
      · exact absurd hnone (List.not_mem_nil)
      · exact ⟨by omega, by omega⟩
      · exact ⟨hsize.1, by have := hsize.2; omega⟩
      · have hlow := hpointer.1
        have hhigh := hpointer.2
        exact ⟨by omega, by omega⟩
    exact faithful_of_clear hsize hfits hcount hpointer hinside hfew
      (fun op hop => hops op (hbefore op hop)) fun op hop => hvalue op (hbefore op hop)

end Faithful

theorem bitmap_faithful_iff_four :
    (∀ before after, [⟨3, false⟩] = before ++ after →
        FaithfulBitmap 4 0x1000 64 before
          (bitmapRun (bitmapInit ⟨⟨fun _ => 0xff, []⟩, []⟩ 4 0x1000 64).2
            (bitmapInit ⟨⟨fun _ => 0xff, []⟩, []⟩ 4 0x1000 64).1 before)) ↔
      16 ≤ 64 ∧ 4 ≤ 5 ∧ ∀ op ∈ ([⟨3, false⟩] : List BitmapOp), op.value = false :=
  bitmap_faithful_iff (fun _ => 0xff) (by decide) (by decide) (by decide) (by decide) (by decide)

/-- A bitmap of eight fields in 64 bytes: the fifth reads as set at once, a bit of the count 8. -/
theorem bitmap_not_faithful :
    (bitmapInit ⟨⟨fun _ => 0, []⟩, []⟩ 8 0x1000 64).1 ≠ 0 ∧
      ¬FaithfulBitmap 8 0x1000 64 []
        (bitmapRun (bitmapInit ⟨⟨fun _ => 0, []⟩, []⟩ 8 0x1000 64).2
          (bitmapInit ⟨⟨fun _ => 0, []⟩, []⟩ 8 0x1000 64).1 []) := by
  refine ⟨by decide, fun h => ?_⟩
  rw [bitmapRun_nil] at h
  have hget := h.get 4 (by decide)
  have hset := (bitmapGet_eq_bitAt (i := 4) h.pointer).trans (bitAt_size h.size (by decide) (by decide))
  rw [hset] at hget
  exact absurd hget (by decide)

end MyOSKernel
