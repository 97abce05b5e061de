import MyOSKernel.MemoryMap

/-! The pages of a memory map. In a map of aligned disjoint descriptors the pages are distinct, there
are no more of them than the address space holds, and together they are the memory described. The
segment search finds the first of the largest runs of free pages. -/

open Finset

namespace MyOSKernel

/-- The start of page `n` of descriptor `i`. -/
def pageAddr (memory : MemoryData) (i n : Nat) : Nat :=
  (getMemoryDescriptor memory i).physicalAddr + n * 4096

/-- The bytes of descriptor `i`. -/
def descriptorBytes (memory : MemoryData) (i : Nat) : Set Nat :=
  Set.Ico (getMemoryDescriptor memory i).physicalAddr
    ((getMemoryDescriptor memory i).physicalAddr +
      (getMemoryDescriptor memory i).numberOfPages * 4096)

/-- A map of page-aligned, pairwise disjoint descriptors in the address space; some may be empty. -/
structure PageLayout (memory : MemoryData) : Prop where
  aligned : ∀ i < memory.entries, 4096 ∣ (getMemoryDescriptor memory i).physicalAddr
  inSpace : ∀ i < memory.entries, (getMemoryDescriptor memory i).physicalAddr +
    (getMemoryDescriptor memory i).numberOfPages * 4096 ≤ 2 ^ 64
  disjoint : ∀ i < memory.entries, ∀ j < memory.entries, i ≠ j →
    Disjoint (descriptorBytes memory i) (descriptorBytes memory j)

namespace PageLayout
variable {memory : MemoryData} {i j n m a : Nat}

/-- Disjointness by comparing ends. -/
theorem of_apart
    (haligned : ∀ i < memory.entries, 4096 ∣ (getMemoryDescriptor memory i).physicalAddr)
    (hspace : ∀ i < memory.entries, (getMemoryDescriptor memory i).physicalAddr +
      (getMemoryDescriptor memory i).numberOfPages * 4096 ≤ 2 ^ 64)
    (hapart : ∀ i < memory.entries, ∀ j < memory.entries, i ≠ j →
      (getMemoryDescriptor memory i).physicalAddr +
          (getMemoryDescriptor memory i).numberOfPages * 4096 ≤
        (getMemoryDescriptor memory j).physicalAddr ∨
      (getMemoryDescriptor memory j).physicalAddr +
          (getMemoryDescriptor memory j).numberOfPages * 4096 ≤
        (getMemoryDescriptor memory i).physicalAddr) : PageLayout memory := by
  refine ⟨haligned, hspace, fun i hi j hj hne => ?_⟩
  rw [Set.disjoint_left]
  intro a ha ha'
  have := ha.1; have := ha.2; have := ha'.1; have := ha'.2
  rcases hapart i hi j hj hne with hdis | hdis
  · omega
  · omega

theorem pageAddr_lt (h : PageLayout memory) (hi : i < memory.entries)
    (hn : n < (getMemoryDescriptor memory i).numberOfPages) : pageAddr memory i n + 4096 ≤ 2 ^ 64 := by
  have := h.inSpace i hi
  unfold pageAddr
  omega

theorem pageAddr_aligned (h : PageLayout memory) (hi : i < memory.entries) :
    4096 ∣ pageAddr memory i n :=
  Nat.dvd_add (h.aligned i hi) (Nat.dvd_mul_left _ _)

theorem page_subset (hn : n < (getMemoryDescriptor memory i).numberOfPages) :
    Set.Ico (pageAddr memory i n) (pageAddr memory i n + 4096) ⊆ descriptorBytes memory i := by
  unfold pageAddr descriptorBytes
  exact Set.Ico_subset_Ico (by omega) (by omega)

/-- A page that meets a descriptor is a page of that descriptor. -/
theorem descriptor_unique (h : PageLayout memory) (hi : i < memory.entries) (hj : j < memory.entries)
    (hn : n < (getMemoryDescriptor memory i).numberOfPages)
    (ha : a ∈ Set.Ico (pageAddr memory i n) (pageAddr memory i n + 4096))
    (haj : a ∈ descriptorBytes memory j) : i = j := by
  by_contra hne
  exact Set.disjoint_left.mp (h.disjoint i hi j hj hne) (page_subset hn ha) haj

/-- No address lies in two pages. -/
theorem page_unique (h : PageLayout memory) (hi : i < memory.entries) (hj : j < memory.entries)
    (hn : n < (getMemoryDescriptor memory i).numberOfPages)
    (hm : m < (getMemoryDescriptor memory j).numberOfPages)
    (ha : a ∈ Set.Ico (pageAddr memory i n) (pageAddr memory i n + 4096))
    (ha' : a ∈ Set.Ico (pageAddr memory j m) (pageAddr memory j m + 4096)) : i = j ∧ n = m := by
  obtain rfl := h.descriptor_unique hi hj hn ha (page_subset hm ha')
  have := ha.1; have := ha.2; have := ha'.1; have := ha'.2
  unfold pageAddr at *
  exact ⟨rfl, by omega⟩

theorem pageAddr_inj (h : PageLayout memory) (hi : i < memory.entries) (hj : j < memory.entries)
    (hn : n < (getMemoryDescriptor memory i).numberOfPages)
    (hm : m < (getMemoryDescriptor memory j).numberOfPages)
    (heq : pageAddr memory i n = pageAddr memory j m) : i = j ∧ n = m :=
  h.page_unique hi hj hn hm (Set.mem_Ico.mpr ⟨le_rfl, by omega⟩) (Set.mem_Ico.mpr ⟨heq.ge, by omega⟩)

/-- There are no more pages than the address space has room for. -/
theorem totalPages_le (h : PageLayout memory) : totalPages memory ≤ 2 ^ 52 := by
  let pages := (range memory.entries).sigma fun i =>
    range (getMemoryDescriptor memory i).numberOfPages
  have hcard : pages.card = totalPages memory := by
    simp only [pages, card_sigma, card_range]
    rfl
  have hmem : ∀ x ∈ pages, x.1 < memory.entries ∧
      x.2 < (getMemoryDescriptor memory x.1).numberOfPages := by
    intro x hx
    obtain ⟨hi, hn⟩ := mem_sigma.mp hx
    exact ⟨mem_range.mp hi, mem_range.mp hn⟩
  rw [← hcard, ← card_range (2 ^ 52)]
  refine card_le_card_of_injOn (fun x => pageAddr memory x.1 x.2 / 4096) ?_ ?_
  · intro x hx
    obtain ⟨hi, hn⟩ := hmem x hx
    have hlt := h.pageAddr_lt hi hn
    refine mem_coe.mpr (mem_range.mpr ?_)
    show pageAddr memory x.1 x.2 / 4096 < 2 ^ 52
    omega
  · intro x hx y hy heq
    obtain ⟨hi, hn⟩ := hmem x hx
    obtain ⟨hj, hm⟩ := hmem y hy
    have hdvd := h.pageAddr_aligned (n := x.2) hi
    have hdvd' := h.pageAddr_aligned (n := y.2) hj
    have hpages : pageAddr memory x.1 x.2 / 4096 = pageAddr memory y.1 y.2 / 4096 := heq
    obtain ⟨hfst, hsnd⟩ := h.pageAddr_inj hi hj hn hm (by omega)
    exact Sigma.ext hfst (heq_of_eq hsnd)

end PageLayout

/-- A byte of a descriptor lies in one of its pages. -/
theorem exists_page_of_mem_descriptorBytes {memory : MemoryData} {i a : Nat}
    (ha : a ∈ descriptorBytes memory i) :
    ∃ n < (getMemoryDescriptor memory i).numberOfPages,
      a ∈ Set.Ico (pageAddr memory i n) (pageAddr memory i n + 4096) := by
  have hlow := ha.1
  have hhigh := ha.2
  refine ⟨(a - (getMemoryDescriptor memory i).physicalAddr) / 4096, by omega, ?_⟩
  unfold pageAddr
  exact Set.mem_Ico.mpr ⟨by omega, by omega⟩

/-- The byte of a descriptor of the map at an offset. -/
def descriptorByte (desc : EfiMemoryDescriptor) (offset : Nat) : UInt8 :=
  if offset < 4 then UInt8.ofNat (desc.type / 256 ^ offset)
  else if 8 ≤ offset ∧ offset < 16 then UInt8.ofNat (desc.physicalAddr / 256 ^ (offset - 8))
  else if 24 ≤ offset ∧ offset < 32 then UInt8.ofNat (desc.numberOfPages / 256 ^ (offset - 24))
  else 0

/-- The map of a list of descriptors, 40 bytes each, from address 0 on. -/
def descriptorMap (descs : List EfiMemoryDescriptor) : MemoryData where
  memoryMap := 0
  descriptorSz := 40
  entries := descs.length
  image :=
    { byte := fun a => (descs[a / 40]?).elim 0 fun desc => descriptorByte desc (a % 40)
      writes := [] }

/-- Its descriptors are those listed, the fields in their widths. -/
theorem getMemoryDescriptor_descriptorMap {descs : List EfiMemoryDescriptor} {i : Nat}
    {desc : EfiMemoryDescriptor} (hi : descs[i]? = some desc) (hsmall : i < 2 ^ 32) :
    getMemoryDescriptor (descriptorMap descs) i =
      { type := desc.type % 2 ^ 32
        physicalAddr := desc.physicalAddr % 2 ^ 64
        numberOfPages := desc.numberOfPages % 2 ^ 64 } := by
  have hbyte {offset : Nat} (hoffset : offset < 40) :
      (descriptorMap descs).image.byte (i * 40 + offset) = descriptorByte desc offset := by
    show (descs[(i * 40 + offset) / 40]?).elim 0 _ = _
    rw [show (i * 40 + offset) / 40 = i by omega, hi, show (i * 40 + offset) % 40 = offset by omega]
    rfl
  have hptr : ((descriptorMap descs).memoryMap + i * (descriptorMap descs).descriptorSz) % 2 ^ 64 =
      i * 40 := by
    show (0 + i * 40) % 2 ^ 64 = i * 40
    omega
  have htype := Memory.loadLE_of_digits (m := (descriptorMap descs).image) (a := i * 40) (n := 4)
    desc.type fun k hk => by
      rw [hbyte (by omega), descriptorByte, if_pos hk]
  have hphysical := Memory.loadLE_of_digits (m := (descriptorMap descs).image) (a := i * 40 + 8) (n := 8)
    desc.physicalAddr fun k hk => by
      rw [Nat.add_assoc, hbyte (by omega), descriptorByte, if_neg (by omega), if_pos (by omega),
        Nat.add_sub_cancel_left]
  have hpages := Memory.loadLE_of_digits (m := (descriptorMap descs).image) (a := i * 40 + 24) (n := 8)
    desc.numberOfPages fun k hk => by
      rw [Nat.add_assoc, hbyte (by omega), descriptorByte, if_neg (by omega), if_neg (by omega),
        if_pos (by omega), Nat.add_sub_cancel_left]
  unfold getMemoryDescriptor
  simp only [hptr, htype, hphysical, hpages]
  norm_num

/-- Descriptor `i` is conventional memory and has a page. -/
abbrev HasFreePages (memory : MemoryData) (i : Nat) : Prop :=
  IsConventional memory i ∧ (getMemoryDescriptor memory i).numberOfPages ≠ 0

/-- Below `2^52` pages the size in bytes fits 64 bits. -/
theorem segmentSz_eq {memory : MemoryData} {i : Nat}
    (hpages : (getMemoryDescriptor memory i).numberOfPages < 2 ^ 52) :
    segmentSz memory i = (getMemoryDescriptor memory i).numberOfPages * 4096 :=
  Nat.mod_eq_of_lt (show _ * 4096 < 2 ^ 64 by omega)

/-- The search returns size and address of the first of the largest segments with free pages, and
without one it returns size zero and the address it was given. -/
theorem segment_search_first_largest (memory : MemoryData) (memSeg : Nat)
    (hpages : ∀ i < memory.entries, (getMemoryDescriptor memory i).numberOfPages < 2 ^ 52) :
    ((∃ i < memory.entries, HasFreePages memory i) →
      ∃ i, FirstMax (HasFreePages memory)
          (fun j => (getMemoryDescriptor memory j).numberOfPages) memory.entries i ∧
        getLargestFreeMemSeg memory memSeg =
          ((getMemoryDescriptor memory i).numberOfPages * 4096,
            (getMemoryDescriptor memory i).physicalAddr)) ∧
    ((¬∃ i < memory.entries, HasFreePages memory i) →
      getLargestFreeMemSeg memory memSeg = (0, memSeg)) := by
  have hsz {i : Nat} (hi : i < memory.entries) := segmentSz_eq (hpages i hi)
  have hsearch := getLargestFreeMemSeg_maxSoFar memory memSeg
  rcases hsearch with ⟨hnone, hzero⟩ | ⟨i, hmax, hpos, hfound⟩
  · refine ⟨?_, fun _ => hnone⟩
    intro hfree
    obtain ⟨i, hi, hconv, hne⟩ := hfree
    have hempty := hzero i hi hconv
    rw [hsz hi] at hempty
    omega
  · rw [hsz hmax.lt] at hpos hfound
    have hfree : HasFreePages memory i := ⟨hmax.holds, by omega⟩
    refine ⟨fun _ => ⟨i, ⟨hmax.lt, hfree, ?_, ?_⟩, hfound⟩, fun hnone => absurd ⟨i, hmax.lt, hfree⟩ hnone⟩
    · intro j hj hfree'
      have hle := hmax.maximal j hj hfree'.1
      rw [hsz hj, hsz hmax.lt] at hle
      omega
    · intro j hj hfree'
      have hlt := hmax.first j hj hfree'.1
      rw [hsz (hj.trans hmax.lt), hsz hmax.lt] at hlt
      omega

/-- Two free segments of five pages after one of two, and a larger one that is not free. -/
def fourSegments : MemoryData :=
  descriptorMap [⟨4, 0, 9⟩, ⟨7, 0x10000, 2⟩, ⟨7, 0x20000, 5⟩, ⟨7, 0x30000, 5⟩]

example : getLargestFreeMemSeg fourSegments 0 = (5 * 4096, 0x20000) := by decide +kernel

theorem segment_search_fourSegments : ∃ i, FirstMax (HasFreePages fourSegments)
      (fun j => (getMemoryDescriptor fourSegments j).numberOfPages) fourSegments.entries i ∧
    getLargestFreeMemSeg fourSegments 0 =
      ((getMemoryDescriptor fourSegments i).numberOfPages * 4096,
        (getMemoryDescriptor fourSegments i).physicalAddr) :=
  (segment_search_first_largest fourSegments 0 (by decide +kernel)).1 ⟨3, by decide +kernel⟩

end MyOSKernel
