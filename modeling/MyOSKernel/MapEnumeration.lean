import MyOSKernel.FrameIsolation

/-! The frame array enumerates the memory map: the running index of the fill loop agrees with the
count of frames, and the record of a page is found at the number of pages before it. The map is an image
that the fill loop does not write, that is, it does not overlap the array; apart from that the array may lie
anywhere and even go round the end of the address space. -/

namespace MyOSKernel.PhysicalMemory

section Records
variable {s : Kernel} {i j addr : Nat}

/-- Reading an address back after a store to a record that starts at the same place. -/
theorem getFrameAddr_setFrameAddr_of_eq (h : s.pmem.framePtr j = s.pmem.framePtr i) :
    getFrameAddr (setFrameAddr s i addr) j = addr % 2 ^ 64 := by
  have hptr : (setFrameAddr s i addr).pmem.framePtr j = s.pmem.framePtr i := h
  rw [getFrameAddr, hptr, setFrameAddr, Memory.loadLE_storeLE]
  norm_num

theorem getFrameAddr_setFrameAddr_of_ne (hi : i < 2 ^ 60) (hj : j < 2 ^ 60) (hne : j ≠ i) :
    getFrameAddr (setFrameAddr s i addr) j = getFrameAddr s j :=
  Memory.loadLE_storeLE_of_disjoint _ (framePtr_disjoint s.pmem.toPhysicalMemory hj hi hne)

end Records

/-- The first `count` records hold the addresses of their pages. -/
def Listed (memory : MemoryData) (count : Nat) (t : Kernel) : Prop :=
  ∀ i < memory.entries, ∀ n < (getMemoryDescriptor memory i).numberOfPages,
    pagesBefore memory i + n < count →
    getFrameAddr t (pagesBefore memory i + n) = pageAddr memory i n % 2 ^ 64

/-- One page more. -/
theorem Listed.fillPage {memory : MemoryData} {count i n : Nat} {fill : FillState}
    (h : Listed memory count fill.kernel) (hcount : count < 2 ^ 60) (hid : fill.frameId = count)
    (hn : n < (getMemoryDescriptor memory i).numberOfPages) (hpos : count = pagesBefore memory i + n) :
    Listed memory (count + 1) (fillPage (getMemoryDescriptor memory i) n fill).kernel := by
  intro k hk m hm hlt
  have haddr : getFrameAddr (PhysicalMemory.fillPage (getMemoryDescriptor memory i) n fill).kernel
      (pagesBefore memory k + m) =
      getFrameAddr (setFrameAddr fill.kernel count (pageAddr memory i n % 2 ^ 64))
        (pagesBefore memory k + m) := by
    rw [← hid]
    unfold PhysicalMemory.fillPage
    dsimp only
    split_ifs
    · exact getFrameAddr_moveFrame _ _ _ _ _
    · rfl
  rw [haddr]
  by_cases heq : pagesBefore memory k + m = count
  · obtain ⟨rfl, rfl⟩ := pagesBefore_add_inj memory hm hn (heq.trans hpos)
    rw [getFrameAddr_setFrameAddr_of_eq (by rw [heq]), Nat.mod_mod]
  · rw [getFrameAddr_setFrameAddr_of_ne hcount (by omega) heq]
    exact h k hk m hm (by omega)

/-- The whole loop. -/
theorem listed_fillFrames {memory : MemoryData} (buffer : Nat) (s : Kernel)
    (htotal : totalPages memory ≤ 2 ^ 60) :
    (fillFrames memory buffer s).frameId = totalPages memory ∧
      Listed memory (totalPages memory) (fillFrames memory buffer s).kernel := by
  apply fillFrames_rule memory buffer s
    (fun i fill => fill.frameId = pagesBefore memory i ∧
      Listed memory (pagesBefore memory i) fill.kernel)
    (fun i n fill => fill.frameId = pagesBefore memory i + n ∧
      Listed memory (pagesBefore memory i + n) fill.kernel)
  · exact ⟨rfl, fun k _ m _ hlt => absurd hlt (Nat.not_lt_zero _)⟩
  · intro i _ fill h
    split_ifs
    · exact h
    · exact h
  · intro i hi n hn fill h
    have hlt := pagesBefore_add_lt memory hi hn
    refine ⟨?_, h.2.fillPage (by omega) h.1 hn rfl⟩
    show (fill.frameId + 1) % 2 ^ 64 = _
    rw [h.1]
    omega
  · intro i _ fill h
    rw [pagesBefore_succ]
    exact h

/-- **The frame array enumerates the memory map.** When an array of one record for every page has room
in the address space, the fill loop writes as many records as `get_number_of_page_frames` counts, the
record of a page is the one after those of the pages before it, and for aligned disjoint descriptors
the frames are distinct and together they are the memory described. -/
theorem frame_array_enumerates_map (memory : MemoryData) (buffer : Nat) (s : Kernel)
    (hentries : memory.entries < 2 ^ 32) (htotal : totalPages memory ≤ 2 ^ 60) :
    let fill := fillFrames memory buffer s
    getNumberOfPageFrames memory = some fill.frameId ∧
    fill.frameId = totalPages memory ∧
    (∀ idx, idx ∈ fill.kernel.pmem.subscripts ↔
      idx < fill.frameId ∨ idx ∈ s.pmem.subscripts) ∧
    (∀ i < memory.entries, ∀ n < (getMemoryDescriptor memory i).numberOfPages,
      getFrameAddr fill.kernel (pagesBefore memory i + n) = pageAddr memory i n % 2 ^ 64) ∧
    (PageLayout memory →
      (∀ j < fill.frameId, ∀ k < fill.frameId,
        getFrameAddr fill.kernel j = getFrameAddr fill.kernel k → j = k) ∧
      {a | ∃ j < fill.frameId,
          a ∈ Set.Ico (getFrameAddr fill.kernel j) (getFrameAddr fill.kernel j + 4096)} =
        {a | ∃ i < memory.entries, a ∈ descriptorBytes memory i}) := by
  intro fill
  obtain ⟨hid, hlisted⟩ := listed_fillFrames buffer s htotal
  have hid' : fill.frameId = totalPages memory := hid
  have haddr : ∀ i < memory.entries, ∀ n < (getMemoryDescriptor memory i).numberOfPages,
      getFrameAddr fill.kernel (pagesBefore memory i + n) = pageAddr memory i n % 2 ^ 64 :=
    fun i hi n hn => hlisted i hi n hn (pagesBefore_add_lt memory hi hn)
  refine ⟨?_, hid', ?_, haddr, fun hlayout => ?_⟩
  · rw [getNumberOfPageFrames_eq memory hentries, hid', Nat.mod_eq_of_lt (by omega)]
  · intro idx
    rw [(fillTrace_fillFrames memory buffer s).2.subscripts, hid']
    refine or_congr_left ⟨fun ⟨k, hk, heq⟩ => by omega, fun h => ⟨idx, h, by omega⟩⟩
  have hpage : ∀ i < memory.entries, ∀ n < (getMemoryDescriptor memory i).numberOfPages,
      getFrameAddr fill.kernel (pagesBefore memory i + n) = pageAddr memory i n := by
    intro i hi n hn
    have hlt := hlayout.pageAddr_lt hi hn
    rw [haddr i hi n hn, Nat.mod_eq_of_lt (by omega)]
  rw [hid']
  constructor
  · intro j hj k hk heq
    obtain ⟨i, n, hi, hn, rfl⟩ := exists_descriptor_of_lt memory hj
    obtain ⟨l, m, hl, hm, rfl⟩ := exists_descriptor_of_lt memory hk
    rw [hpage i hi n hn, hpage l hl m hm] at heq
    obtain ⟨rfl, rfl⟩ := hlayout.pageAddr_inj hi hl hn hm heq
    rfl
  · ext a
    constructor
    · intro hc
      obtain ⟨j, hj, ha⟩ := hc
      obtain ⟨i, n, hi, hn, rfl⟩ := exists_descriptor_of_lt memory hj
      rw [hpage i hi n hn] at ha
      exact ⟨i, hi, PageLayout.page_subset hn ha⟩
    · intro hc
      obtain ⟨i, hi, ha⟩ := hc
      obtain ⟨n, hn, ha⟩ := exists_page_of_mem_descriptorBytes ha
      refine ⟨pagesBefore memory i + n, pagesBefore_add_lt memory hi hn, ?_⟩
      rw [hpage i hi n hn]
      exact ha

/-- Three pages in two descriptors, with an empty one between. -/
def threePages : MemoryData := descriptorMap [⟨7, 0x1000, 2⟩, ⟨7, 0x9000, 0⟩, ⟨4, 0x5000, 1⟩]

theorem frame_array_enumerates_map_threePages :
    getFrameAddr (fillFrames threePages 0x1000
      (clearedState threePages 0x1000 fun _ => 0xff)).kernel 2 = 0x5000 := by
  have hpages : pagesBefore threePages 2 + 0 = 2 := by decide +kernel
  have hpage : pageAddr threePages 2 0 % 2 ^ 64 = 0x5000 := by decide +kernel
  have haddr := (frame_array_enumerates_map threePages 0x1000
    (clearedState threePages 0x1000 fun _ => 0xff) (by decide +kernel)
    (by decide +kernel)).2.2.2.1 2 (by decide +kernel) 0 (by decide +kernel)
  rw [hpages, hpage] at haddr
  exact haddr

/-! ### More records than the address space holds -/

/-- One page, and then `2^60` of them. -/
def aliasingMap : MemoryData := descriptorMap [⟨7, 0x1000, 1⟩, ⟨7, 0x5000, 2 ^ 60⟩]

theorem getMemoryDescriptor_aliasingMap_zero :
    getMemoryDescriptor aliasingMap 0 = ⟨7, 0x1000, 1⟩ := by
  rw [aliasingMap, getMemoryDescriptor_descriptorMap (List.getElem?_cons_zero) (by decide)]
  norm_num

theorem getMemoryDescriptor_aliasingMap_one :
    getMemoryDescriptor aliasingMap 1 = ⟨7, 0x5000, 2 ^ 60⟩ := by
  rw [aliasingMap, getMemoryDescriptor_descriptorMap
    (List.getElem?_cons_succ.trans List.getElem?_cons_zero) (by decide)]
  norm_num

theorem totalPages_aliasingMap : totalPages aliasingMap = 2 ^ 60 + 1 := by
  have hsum : totalPages aliasingMap = pagesBefore aliasingMap (0 + 1 + 1) := rfl
  rw [hsum, pagesBefore_succ, pagesBefore_succ, pagesBefore_zero,
    getMemoryDescriptor_aliasingMap_zero, getMemoryDescriptor_aliasingMap_one]
  norm_num

/-- The last record lies on the first, which then holds the last page's address. -/
theorem getFrameAddr_aliasingMap (buffer : Nat) (s : Kernel) :
    getFrameAddr (fillFrames aliasingMap buffer s).kernel 0 = 0x4000 := by
  have hdesc {i : Nat} (hi : i < aliasingMap.entries) : i = 0 ∨ i = 1 := by
    have hi' : i < 2 := hi
    omega
  have hloop := fillFrames_rule aliasingMap buffer s
    (fun i fill => (i < 2 → fill.frameId = i) ∧ (i = 2 → getFrameAddr fill.kernel 0 = 0x4000))
    (fun i n fill => fill.frameId = i + n ∧
      (i = 1 → n = 2 ^ 60 → getFrameAddr fill.kernel 0 = 0x4000))
    ⟨fun _ => rfl, fun h => absurd h (by decide)⟩
    (by
      intro i hi fill h
      have hid : fill.frameId = i := h.1 hi
      split_ifs
      · exact ⟨hid, fun _ hn => absurd hn (by decide)⟩
      · exact ⟨hid, fun _ hn => absurd hn (by decide)⟩)
    (by
      intro i hi n hn fill h
      rcases hdesc hi with rfl | rfl
      · rw [getMemoryDescriptor_aliasingMap_zero] at hn ⊢
        dsimp only at hn
        refine ⟨?_, fun hc => absurd hc (by decide)⟩
        show (fill.frameId + 1) % 2 ^ 64 = _
        omega
      · rw [getMemoryDescriptor_aliasingMap_one] at hn ⊢
        dsimp only at hn
        refine ⟨?_, fun _ hlast => ?_⟩
        · show (fill.frameId + 1) % 2 ^ 64 = _
          omega
        · -- the record at index `2^60`
          have hid : fill.frameId = 2 ^ 60 := by omega
          have hptr : fill.kernel.pmem.framePtr 0 = fill.kernel.pmem.framePtr (2 ^ 60) := by
            unfold framePtr sizeofPageFrame
            omega
          have hstore : (PhysicalMemory.fillPage ⟨7, 0x5000, 2 ^ 60⟩ n fill).kernel =
              setFrameAddr fill.kernel (2 ^ 60) ((0x5000 + n * 4096) % 2 ^ 64) := by
            unfold PhysicalMemory.fillPage
            dsimp only
            rw [if_neg (by decide), hid]
          rw [hstore, getFrameAddr_setFrameAddr_of_eq hptr]
          omega)
    (by
      intro i hi fill h
      rcases hdesc hi with rfl | rfl
      · rw [getMemoryDescriptor_aliasingMap_zero] at h
        exact ⟨fun _ => h.1, fun hc => absurd hc (by decide)⟩
      · rw [getMemoryDescriptor_aliasingMap_one] at h
        exact ⟨fun hc => absurd hc (by decide), fun _ => h.2 rfl rfl⟩)
  exact hloop.2 rfl

/-- With `2^60 + 1` pages, whose total does not overflow, the first record does not keep its page. -/
theorem frame_array_aliases :
    ¬∀ (memory : MemoryData) (bytes : Nat → UInt8) (fill : FillState),
      memory.entries < 2 ^ 32 → totalPages memory < 2 ^ 64 →
      fillArray memory (getLargestFreeMemSeg memory 0).2 (bootState bytes) = some fill →
      ∀ i < memory.entries, ∀ n < (getMemoryDescriptor memory i).numberOfPages,
        getFrameAddr fill.kernel (pagesBefore memory i + n) = pageAddr memory i n % 2 ^ 64 := by
  intro h
  have htotal : totalPages aliasingMap < 2 ^ 64 := by
    rw [totalPages_aliasingMap]
    decide
  have hfirst := h aliasingMap (fun _ => 0) _ (by decide) htotal
    (fillArray_eq aliasingMap _ _ (by decide)) 0 (by decide) 0
    (by rw [getMemoryDescriptor_aliasingMap_zero]; decide)
  rw [pagesBefore_zero, getFrameAddr_aliasingMap, pageAddr, getMemoryDescriptor_aliasingMap_zero]
    at hfirst
  exact absurd hfirst (by decide)

end MyOSKernel.PhysicalMemory
