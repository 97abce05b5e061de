import MyOSKernel.Loops
import MyOSKernel.Stdlib

/-! The UEFI memory map (`memory/mmap.c`) and the search for the segment that will hold the frame
array (`__get_largest_free_mem_seg` of `memory/pmem.c`). A descriptor is read from the bytes of the
map at the firmware's own stride. -/

open Finset

namespace MyOSKernel

/-- `PAGE_SZ` and `FRAME_SZ`. -/
abbrev pageSz : Nat := 4096

inductive EfiMemoryType where
  | reservedMemoryType
  | loaderCode
  | loaderData
  | bootServicesCode
  | bootServicesData
  | runtimeServicesCode
  | runtimeServicesData
  | conventionalMemory
  | unusableMemory
  | acpiReclaimMemory
  | acpiMemoryNvs
  | memoryMappedIo
  | memoryMappedIoPortSpace
  | palCode
  | maxMemoryType
  deriving DecidableEq

/-- The value of the enumerator in the `type` field of a descriptor. -/
def EfiMemoryType.code (t : EfiMemoryType) : Nat := t.ctorIdx

/-- The fields of a descriptor the kernel reads. -/
structure EfiMemoryDescriptor where
  type : Nat
  physicalAddr : Nat
  numberOfPages : Nat
  deriving DecidableEq

/-- The map handed over by the bootloader: where it starts, its stride, its number of descriptors,
and the bytes the firmware left there. They are an image apart from the memory the kernel writes: the map
overlaps nothing that is written, the frame array included. -/
structure MemoryData where
  memoryMap : Nat
  descriptorSz : Nat
  entries : Nat
  image : Memory

def getMemoryDescriptor (memory : MemoryData) (n : Nat) : EfiMemoryDescriptor :=
  let desc := (memory.memoryMap + n * memory.descriptorSz) % 2 ^ 64
  { type := memory.image.loadLE desc 4
    physicalAddr := memory.image.loadLE (desc + 8) 8
    numberOfPages := memory.image.loadLE (desc + 24) 8 }

/-- The loop of `get_number_of_page_frames`. Its counter is a `uint32_t` compared with the 64-bit
`entries`; `fuel` bounds the rounds and `none` stands for a loop still running. -/
def sumNumberOfPages (memory : MemoryData) : (fuel i result : Nat) → Option Nat
  | 0, _, _ => none
  | fuel + 1, i, result =>
      if i < memory.entries then
        sumNumberOfPages memory fuel ((i + 1) % 2 ^ 32)
          ((result + (getMemoryDescriptor memory i).numberOfPages) % 2 ^ 64)
      else some result

/-- A loop that has not ended after `entries + 1` rounds never does. -/
def getNumberOfPageFrames (memory : MemoryData) : Option Nat :=
  sumNumberOfPages memory (memory.entries + 1) 0 0

/-- `seg_sz` of descriptor `i`, in bytes. -/
def segmentSz (memory : MemoryData) (i : Nat) : Nat :=
  (getMemoryDescriptor memory i).numberOfPages * pageSz % 2 ^ 64

/-- `__get_largest_free_mem_seg`: the final `*size` and `*mem_seg`, the latter starting at
`memSeg`. -/
def getLargestFreeMemSeg (memory : MemoryData) (memSeg : Nat) : Nat × Nat :=
  Nat.fold memory.entries (fun i _ out =>
    if (getMemoryDescriptor memory i).type = EfiMemoryType.conventionalMemory.code then
      if out.1 < segmentSz memory i then
        (segmentSz memory i, (getMemoryDescriptor memory i).physicalAddr)
      else out
    else out) (0, memSeg)

variable (memory : MemoryData)

theorem physicalAddr_lt (i : Nat) : (getMemoryDescriptor memory i).physicalAddr < 2 ^ 64 :=
  lt_of_lt_of_eq Memory.loadLE_lt (by decide)

/-- The pages described before descriptor `i`. -/
def pagesBefore (i : Nat) : Nat := ∑ k ∈ range i, (getMemoryDescriptor memory k).numberOfPages

/-- The pages of the whole map. -/
def totalPages : Nat := pagesBefore memory memory.entries

@[simp] theorem pagesBefore_zero : pagesBefore memory 0 = 0 := rfl

theorem pagesBefore_succ (i : Nat) : pagesBefore memory (i + 1) =
    pagesBefore memory i + (getMemoryDescriptor memory i).numberOfPages := by
  rw [pagesBefore, pagesBefore, sum_range_succ]

theorem pagesBefore_mono {i j : Nat} (h : i ≤ j) : pagesBefore memory i ≤ pagesBefore memory j :=
  sum_le_sum_of_subset (range_mono h)

theorem pagesBefore_le_total {i : Nat} (h : i ≤ memory.entries) :
    pagesBefore memory i ≤ totalPages memory := pagesBefore_mono memory h

theorem pagesBefore_add_lt {i n : Nat} (hi : i < memory.entries)
    (hn : n < (getMemoryDescriptor memory i).numberOfPages) :
    pagesBefore memory i + n < totalPages memory := by
  have hnext := pagesBefore_le_total memory (Nat.succ_le_of_lt hi)
  rw [pagesBefore_succ] at hnext
  omega

/-- Every frame number is a page of exactly one descriptor. -/
theorem exists_descriptor_of_lt {idx : Nat} (h : idx < totalPages memory) :
    ∃ i n, i < memory.entries ∧ n < (getMemoryDescriptor memory i).numberOfPages ∧
      idx = pagesBefore memory i + n := by
  have hsearch : ∀ m, idx < pagesBefore memory m →
      ∃ i n, i < m ∧ n < (getMemoryDescriptor memory i).numberOfPages ∧
        idx = pagesBefore memory i + n := by
    intro m
    induction m with
    | zero => intro hm; exact absurd hm (Nat.not_lt_zero _)
    | succ m ih =>
        intro hm
        rw [pagesBefore_succ] at hm
        by_cases hlow : idx < pagesBefore memory m
        · obtain ⟨i, n, hi, hn, heq⟩ := ih hlow
          exact ⟨i, n, by omega, hn, heq⟩
        · exact ⟨m, idx - pagesBefore memory m, by omega, by omega, by omega⟩
  exact hsearch _ h

theorem pagesBefore_add_inj {i j n k : Nat} (hn : n < (getMemoryDescriptor memory i).numberOfPages)
    (hk : k < (getMemoryDescriptor memory j).numberOfPages)
    (h : pagesBefore memory i + n = pagesBefore memory j + k) : i = j ∧ n = k := by
  have hij : i = j := by
    rcases Nat.lt_trichotomy i j with hlt | heq | hlt
    · have := pagesBefore_mono memory (Nat.succ_le_of_lt hlt)
      rw [Nat.succ_eq_add_one, pagesBefore_succ] at this
      omega
    · exact heq
    · have := pagesBefore_mono memory (Nat.succ_le_of_lt hlt)
      rw [Nat.succ_eq_add_one, pagesBefore_succ] at this
      omega
  subst hij
  exact ⟨rfl, by omega⟩

theorem sumNumberOfPages_eq (hentries : memory.entries < 2 ^ 32) {fuel i result : Nat}
    (hi : i ≤ memory.entries) (hfuel : memory.entries - i < fuel)
    (hresult : result = pagesBefore memory i % 2 ^ 64) :
    sumNumberOfPages memory fuel i result = some (totalPages memory % 2 ^ 64) := by
  induction fuel generalizing i result with
  | zero => omega
  | succ fuel ih =>
      rw [sumNumberOfPages]
      split_ifs with h
      · rw [Nat.mod_eq_of_lt (by omega)]
        refine ih (by omega) (by omega) ?_
        rw [hresult, pagesBefore_succ, Nat.mod_add_mod]
      · obtain rfl : i = memory.entries := by omega
        rw [hresult, totalPages]

/-- With fewer than `2^32` descriptors the count is their page total, in 64 bits. -/
theorem getNumberOfPageFrames_eq (hentries : memory.entries < 2 ^ 32) :
    getNumberOfPageFrames memory = some (totalPages memory % 2 ^ 64) :=
  sumNumberOfPages_eq memory hentries (Nat.zero_le _) (by omega) (by simp)

/-- With `2^32` descriptors or more the 32-bit counter never reaches `entries`. -/
theorem sumNumberOfPages_eq_none (hentries : 2 ^ 32 ≤ memory.entries) {fuel i result : Nat}
    (hi : i < 2 ^ 32) : sumNumberOfPages memory fuel i result = none := by
  induction fuel generalizing i result with
  | zero => rfl
  | succ fuel ih =>
      rw [sumNumberOfPages, if_pos (by omega)]
      exact ih (Nat.mod_lt _ (by decide))

theorem getNumberOfPageFrames_isSome_iff :
    (getNumberOfPageFrames memory).isSome ↔ memory.entries < 2 ^ 32 := by
  constructor
  · intro h
    by_contra hlarge
    rw [getNumberOfPageFrames, sumNumberOfPages_eq_none memory (by omega) (by decide)] at h
    simp at h
  · intro h
    rw [getNumberOfPageFrames_eq memory h]
    rfl

abbrev IsConventional (i : Nat) : Prop :=
  (getMemoryDescriptor memory i).type = EfiMemoryType.conventionalMemory.code

/-- The state of the segment search after `count` descriptors. -/
structure SegmentSearch (memSeg count : Nat) (out : Nat × Nat) : Prop where
  maximal : ∀ i < count, IsConventional memory i → segmentSz memory i ≤ out.1
  found : (out = (0, memSeg)) ∨ ∃ i < count, IsConventional memory i ∧ 0 < segmentSz memory i ∧
    out = (segmentSz memory i, (getMemoryDescriptor memory i).physicalAddr)

/-- The search is a running maximum over the conventional descriptors. -/
theorem getLargestFreeMemSeg_maxSoFar (memSeg : Nat) :
    MaxSoFar (IsConventional memory) (segmentSz memory)
      (fun i => (getMemoryDescriptor memory i).physicalAddr) memSeg memory.entries
      (getLargestFreeMemSeg memory memSeg) :=
  fold_maxRound memSeg memory.entries

/-- The search ends with a largest conventional segment, or with size zero and the address it was
given when every conventional segment is empty. -/
theorem getLargestFreeMemSeg_spec (memSeg : Nat) :
    SegmentSearch memory memSeg memory.entries (getLargestFreeMemSeg memory memSeg) := by
  have hsearch := getLargestFreeMemSeg_maxSoFar memory memSeg
  refine ⟨fun i hi hconv => hsearch.le hi hconv, ?_⟩
  rcases hsearch with ⟨hnone, -⟩ | ⟨i, hmax, hpos, hfound⟩
  · exact Or.inl hnone
  · exact Or.inr ⟨i, hmax.lt, hmax.holds, hpos, hfound⟩

/-- The size found is a whole number of pages, and size and address are 64-bit values. -/
theorem getLargestFreeMemSeg_bounds :
    4096 ∣ (getLargestFreeMemSeg memory 0).1 ∧ (getLargestFreeMemSeg memory 0).1 < 2 ^ 64 ∧
      (getLargestFreeMemSeg memory 0).2 < 2 ^ 64 := by
  rcases (getLargestFreeMemSeg_spec memory 0).found with h | ⟨i, _, _, _, h⟩
  · rw [h]
    decide
  · rw [h]
    refine ⟨?_, ?_, physicalAddr_lt memory i⟩
    · show 4096 ∣ (getMemoryDescriptor memory i).numberOfPages * 4096 % 2 ^ 64
      omega
    · exact Nat.mod_lt _ (by decide)

end MyOSKernel
